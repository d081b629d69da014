import Mathlib.Data.Int.Notation
import Mathlib.Data.List.Basic

/-! Compressors that are called with some input and some space for output, and the record of their
calls. -/
namespace Compressor

/-- What a call leaves: the state, how much input it took, what it put out and what it returned. -/
structure Result (σ α : Type*) where
  state : σ
  consumed : ℕ
  output : List α
  ret : ℤ

structure Call (α : Type*) where
  action : ℤ
  input : List α
  consumed : List α
  space : ℕ
  output : List α
  deriving DecidableEq, Repr

end Compressor

/-- A call with an action, the input that is offered and the space for output. -/
abbrev Compressor (σ α : Type*) := σ → ℤ → List α → ℕ → Compressor.Result σ α

namespace Compressor
variable {σ α : Type*} (z : Compressor σ α)

/-- The compressor with the record of its calls as a part of its state. -/
def logged : Compressor (σ × List (Call α)) α := fun s action input space =>
  let r := z s.1 action input space
  ⟨(r.state, s.2 ++ [⟨action, input, input.take r.consumed, space, r.output⟩]),
    r.consumed, r.output, r.ret⟩

/-- The input that was taken over some calls. -/
def taken (calls : List (Call α)) : List α := calls.flatMap Call.consumed

/-- The output of some calls. -/
def given (calls : List (Call α)) : List α := calls.flatMap Call.output

@[simp] theorem taken_nil : taken ([] : List (Call α)) = [] := rfl
@[simp] theorem given_nil : given ([] : List (Call α)) = [] := rfl

@[simp] theorem taken_append (c d : List (Call α)) : taken (c ++ d) = taken c ++ taken d :=
  List.flatMap_append

@[simp] theorem given_append (c d : List (Call α)) : given (c ++ d) = given c ++ given d :=
  List.flatMap_append

@[simp] theorem taken_singleton (c : Call α) : taken [c] = c.consumed := List.flatMap_singleton ..
@[simp] theorem given_singleton (c : Call α) : given [c] = c.output := List.flatMap_singleton ..

section Call
variable {z} (s : σ × List (Call α)) (action : ℤ) (input : List α) (space : ℕ)

/-- What a call takes is the front of what was offered. -/
theorem taken_logged : taken (z.logged s action input space).state.2 ++
    input.drop (z.logged s action input space).consumed = taken s.2 ++ input := by
  simp [logged]

theorem given_logged : given (z.logged s action input space).state.2 =
    given s.2 ++ (z.logged s action input space).output := by
  simp [logged]

end Call

variable (accepted : ℤ → Bool) (action : ℤ) (space : ℕ)

/-- Calls that are repeated with the same input take some of it in the end. -/
inductive Progresses : σ → List α → Prop
  | now {s : σ} {input : List α} (h : 0 < (z s action input space).consumed) : Progresses s input
  | later {s : σ} {input : List α} (hnone : (z s action input space).consumed = 0)
    (h : Progresses (z s action input space).state input) : Progresses s input

/-- Calls that are repeated with what is left of the input return `streamEnd` in the end, and not
before all of it was taken. -/
inductive Finishes (streamEnd : ℤ) : σ → List α → Prop
  | last {s : σ} {input : List α} (hret : (z s action input space).ret = streamEnd)
    (hall : (z s action input space).consumed = input.length) : Finishes streamEnd s input
  | more {s : σ} {input : List α} (hret : (z s action input space).ret ≠ streamEnd)
    (hok : accepted (z s action input space).ret = true)
    (h : Finishes streamEnd (z s action input space).state
      (input.drop (z s action input space).consumed)) : Finishes streamEnd s input

/-- What is assumed of a compressor with some space for its output. The states that `running` tells
are those in front of the first call with `finish`. -/
structure Lawful (run finish streamEnd : ℤ) (running : σ → Prop) : Prop where
  consumed_le : ∀ s action input, (z s action input space).consumed ≤ input.length
  output_le : ∀ s action input, (z s action input space).output.length ≤ space
  run_accepted : ∀ s input, running s → input ≠ [] →
    accepted (z s run input space).ret = true
  run_running : ∀ s input, running s → input ≠ [] → running (z s run input space).state
  progresses : ∀ s input, running s → input ≠ [] → Progresses z run space s input
  finishes : ∀ s input, running s → Finishes z accepted finish space streamEnd s input

end Compressor
