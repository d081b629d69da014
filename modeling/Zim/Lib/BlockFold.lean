import Mathlib.Data.List.Basic

/-! Folds over the blocks of a text, as hash functions make them of a text that comes in pieces. -/
namespace BlockFold
variable {σ α : Type*} (f : σ → List α → σ) (n : ℕ)

/-- The state behind the whole blocks of a text, and what is left of the text. -/
def absorb (s : σ) (text : List α) : σ × List α :=
  if 0 < n ∧ n ≤ text.length then absorb (f s (text.take n)) (text.drop n) else (s, text)
termination_by text.length
decreasing_by
  rw [List.length_drop]
  omega

variable {f n} {s : σ}

theorem absorb_of_lt {text : List α} (h : text.length < n) : absorb f n s text = (s, text) := by
  rw [absorb, if_neg (by omega)]

theorem absorb_block {block : List α} (hn : 0 < n) (hblock : block.length = n)
    (text : List α) : absorb f n s (block ++ text) = absorb f n (f s block) text := by
  subst hblock
  rw [absorb, if_pos ⟨hn, by simp⟩, List.take_left, List.drop_left]

/-- A text and what follows it: the rest of the text is completed by what follows. -/
theorem absorb_append (text more : List α) : absorb f n s (text ++ more) =
    absorb f n (absorb f n s text).1 ((absorb f n s text).2 ++ more) := by
  fun_induction absorb f n s text with
  | case1 s text h ih =>
    have hblock : (text.take n).length = n := List.length_take_of_le h.2
    have hsplit : text ++ more = text.take n ++ (text.drop n ++ more) := by
      rw [← List.append_assoc, List.take_append_drop]
    rw [hsplit, absorb_block h.1 hblock, ih]
  | case2 => rfl

theorem rest_length (hn : 0 < n) (text : List α) :
    (absorb f n s text).2.length = text.length % n := by
  fun_induction absorb f n s text with
  | case1 s text h ih => rw [ih, List.length_drop, ← Nat.mod_eq_sub_mod h.2]
  | case2 s text h => rw [Nat.mod_eq_of_lt (by omega)]

end BlockFold
