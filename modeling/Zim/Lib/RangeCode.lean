import Mathlib.Data.Nat.Digits.Lemmas
import Mathlib.Tactic.Ring

/-! Range codes. A symbol narrows an interval to a part of it, an interval that has become short is
scaled up by a digit, and the digits of where the last interval begins tell the symbols apart. -/
namespace RangeCode

inductive Step where
  | scale
  | narrow (start width : ℕ)

/-- The number of digits by which the interval is scaled up. -/
def scales : List Step → ℕ
  | [] => 0
  | .scale :: steps => scales steps + 1
  | .narrow _ _ :: steps => scales steps

/-- How far behind the start of the first interval the last one begins, in units of the last. -/
def position (base : ℕ) : List Step → ℕ
  | [] => 0
  | .scale :: steps => position base steps
  | .narrow start _ :: steps => start * base ^ scales steps + position base steps

/-- Every part lies inside the interval it is taken of, and the last one is not empty. -/
def Inside (base : ℕ) : ℕ → List Step → Prop
  | width, [] => 0 < width
  | width, .scale :: steps => Inside base (width * base) steps
  | width, .narrow start part :: steps => start + part ≤ width ∧ Inside base part steps

/-- The number with the given digits, the most significant first. -/
def number (base : ℕ) (digits : List ℕ) : ℕ := Nat.ofDigits base digits.reverse

variable {base width start part code : ℕ} {steps : List Step} {digits : List ℕ}

theorem number_append (front back : List ℕ) :
    number base (front ++ back) = number base front * base ^ back.length + number base back := by
  rw [number, List.reverse_append, Nat.ofDigits_append, List.length_reverse, Nat.mul_comm,
    Nat.add_comm]
  rfl

theorem number_singleton (d : ℕ) : number base [d] = d := by simp [number]

theorem number_cons (d : ℕ) : number base (d :: digits) =
    d * base ^ digits.length + number base digits := by
  rw [← List.singleton_append, number_append, number_singleton]

theorem number_lt (hbase : 1 < base) (hdigits : ∀ d ∈ digits, d < base) :
    number base digits < base ^ digits.length := by
  rw [number, ← List.length_reverse]
  exact Nat.ofDigits_lt_base_pow_length hbase (by simpa using hdigits)

/-- A carry goes through the largest digits and stops at a digit in front of them. -/
theorem number_carry (front : List ℕ) (d n : ℕ) (hbase : 1 < base) :
    number base (front ++ (d + 1) :: List.replicate n 0) =
      number base (front ++ d :: List.replicate n (base - 1)) + 1 := by
  have hlast : number base (List.replicate n (base - 1)) + 1 = base ^ n := by
    induction n with
    | zero => rfl
    | succ n ih =>
      have hpow : base ^ n ≤ base ^ (n + 1) := Nat.pow_le_pow_right (by omega) n.le_succ
      rw [List.replicate_succ, number_cons, List.length_replicate, Nat.add_assoc, ih,
        Nat.sub_mul, Nat.one_mul, ← pow_succ', Nat.sub_add_cancel hpow]
  have hzero : number base (List.replicate n 0) = 0 := by
    simp [number]
  rw [number_append, number_append, number_cons, number_cons, hzero]
  simp only [List.length_cons, List.length_replicate]
  rw [Nat.add_assoc, Nat.add_assoc, hlast]
  ring

theorem position_lt (h : Inside base width steps) :
    position base steps < width * base ^ scales steps := by
  induction steps generalizing width with
  | nil => simpa [position, scales] using show 0 < width from h
  | cons step steps ih =>
    cases step with
    | scale =>
      have hlt := ih h
      rwa [Nat.mul_assoc, ← pow_succ'] at hlt
    | narrow start part =>
      have hlt := ih h.2
      have hle := Nat.mul_le_mul_right (base ^ scales steps) h.1
      rw [Nat.add_mul] at hle
      simp only [position, scales]
      omega

theorem Inside.pos (h : Inside base width steps) : 0 < width := by
  induction steps generalizing width with
  | nil => exact h
  | cons step steps ih =>
    cases step with
    | scale => exact Nat.pos_of_mul_pos_right (ih h)
    | narrow start part =>
      have hpart := ih h.2
      have hle := h.1
      omega

/-- What a decoder knows of the steps that are left: it has looked at as many digits of their
position as tell `code`, and the others are left. -/
structure Points (base code : ℕ) (digits : List ℕ) (steps : List Step) : Prop where
  length : digits.length = scales steps
  digit_lt : ∀ d ∈ digits, d < base
  position : code * base ^ digits.length + number base digits = position base steps

namespace Points

theorem code_lt (h : Points base code digits steps) (hinside : Inside base width steps) :
    code < width := by
  have hlt := position_lt hinside
  rw [← h.position, ← h.length] at hlt
  exact Nat.lt_of_mul_lt_mul_right (Nat.lt_of_le_of_lt (Nat.le_add_right _ _) hlt)

theorem scale (h : Points base code digits (.scale :: steps)) :
    ∃ d rest, digits = d :: rest ∧ Points base (code * base + d) rest steps := by
  cases digits with
  | nil =>
    have hlength := h.length
    simp [scales] at hlength
  | cons d rest =>
    refine ⟨d, rest, rfl, ?_, fun e he => h.digit_lt e (List.mem_cons_of_mem _ he), ?_⟩
    · exact Nat.succ.inj h.length
    · have hposition := h.position
      rw [number_cons, List.length_cons, pow_succ'] at hposition
      rw [Nat.add_mul, Nat.mul_assoc, Nat.add_assoc]
      exact hposition

/-- The code lies in the part that the next symbol takes. -/
theorem narrow (hbase : 1 < base) (h : Points base code digits (.narrow start part :: steps))
    (hinside : Inside base part steps) :
    start ≤ code ∧ code < start + part ∧ Points base (code - start) digits steps := by
  have hposition := h.position
  have hlength : digits.length = scales steps := h.length
  have hnumber := number_lt hbase h.digit_lt
  have hlt := position_lt hinside
  rw [RangeCode.position] at hposition
  rw [hlength] at hnumber hposition
  have hstart : start ≤ code := by
    by_contra hnot
    have hle := Nat.mul_le_mul_right (base ^ scales steps) (show code + 1 ≤ start by omega)
    rw [Nat.add_mul, Nat.one_mul] at hle
    omega
  have hcode : Points base (code - start) digits steps := by
    refine ⟨hlength, h.digit_lt, ?_⟩
    have hle := Nat.mul_le_mul_right (base ^ scales steps) hstart
    rw [hlength, Nat.sub_mul]
    omega
  have hpart := hcode.code_lt hinside
  exact ⟨hstart, by omega, hcode⟩

theorem nil (h : Points base code digits []) : code = 0 ∧ digits = [] := by
  have hdigits : digits = [] := List.eq_nil_of_length_eq_zero h.length
  subst hdigits
  have hposition := h.position
  simpa [RangeCode.position, number] using hposition

end Points

end RangeCode
