import Mathlib.Data.List.Basic

/-! Scans of a list from a position on, up to the first element that fails a test. -/
namespace Scan
variable {α : Type} {test wanted : α → Bool} {l front back : List α}

/-- If what is wanted comes first, a scan by a test that agrees with it finds all of it. -/
theorem takeWhile_eq_filter (htest : ∀ a ∈ l, test a = wanted a)
    (hfirst : l.Pairwise fun a b => wanted b = true → wanted a = true) :
    l.takeWhile test = l.filter wanted := by
  induction l with
  | nil => rfl
  | cons a l ih =>
    obtain ⟨ha, hl⟩ := List.pairwise_cons.mp hfirst
    have hrest := ih (fun b hb => htest b (List.mem_cons_of_mem a hb)) hl
    have hhead := htest a List.mem_cons_self
    by_cases hwanted : wanted a = true
    · rw [List.takeWhile_cons_of_pos (hhead.trans hwanted), List.filter_cons_of_pos hwanted, hrest]
    · have hnone : l.filter wanted = [] :=
        List.filter_eq_nil_iff.mpr fun b hb hb' => hwanted (ha b hb hb')
      rw [List.takeWhile_cons_of_neg (by rwa [hhead]), List.filter_cons_of_neg hwanted, hnone]

/-- Whether a part may be left out of what is taken. -/
theorem take_append_eq_iff (hdisjoint : front.Disjoint back) (n : ℕ) :
    back.take n = (front ++ back).take n ↔ n = 0 ∨ front = [] := by
  constructor
  · intro h
    cases front with
    | nil => exact .inr rfl
    | cons a front =>
      cases n with
      | zero => exact .inl rfl
      | succ n =>
        have hmem : a ∈ back.take (n + 1) := by
          rw [h, List.cons_append, List.take_succ_cons]
          exact List.mem_cons_self
        exact absurd (List.mem_of_mem_take hmem) fun hback =>
          hdisjoint List.mem_cons_self hback
  · rintro (rfl | rfl)
    · rfl
    · rfl

/-- A scan from position `p` finds the first `n` elements wanted if and only if none of them is
before `p`. -/
theorem scan_eq_iff {p : ℕ} (hnodup : l.Nodup)
    (htest : ∀ a ∈ l.drop p, test a = wanted a)
    (hfirst : (l.drop p).Pairwise fun a b => wanted b = true → wanted a = true) (n : ℕ) :
    ((l.drop p).takeWhile test).take n = (l.filter wanted).take n ↔
      n = 0 ∨ ∀ a ∈ l.take p, wanted a = false := by
  have hsplit : l.filter wanted = (l.take p).filter wanted ++ (l.drop p).filter wanted := by
    rw [← List.filter_append, List.take_append_drop]
  have hdisjoint : ((l.take p).filter wanted).Disjoint ((l.drop p).filter wanted) := by
    intro a ha ha'
    exact List.disjoint_take_drop hnodup (Nat.le_refl p) (List.mem_of_mem_filter ha)
      (List.mem_of_mem_filter ha')
  rw [takeWhile_eq_filter htest hfirst, hsplit, take_append_eq_iff hdisjoint,
    List.filter_eq_nil_iff]
  simp only [Bool.not_eq_true]

end Scan
