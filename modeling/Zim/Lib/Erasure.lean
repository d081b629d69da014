import Zim.Lib.Stateful

/-! Programs on a part of a state, and programs that agree once a part of the state is erased. -/
namespace Stateful
variable {ε ε' σ τ ρ α β : Type}

/-- A program on the part of a state that `read` gives and `write` sets. -/
def within (read : σ → τ) (write : σ → τ → σ) (err : ε → ε') (x : EStateM ε τ α) :
    EStateM ε' σ α := fun s =>
  match x (read s) with
  | .ok a t => .ok a (write s t)
  | .error e t => .error (err e) (write s t)

namespace Preserves
variable {I : σ → Prop}

/-- A program on a part of which the invariant does not speak. -/
theorem within {read : σ → τ} {write : σ → τ → σ} {err : ε → ε'} {x : EStateM ε τ α}
    (h : ∀ s t, I s → I (write s t)) : Preserves I (within read write err x) := by
  intro s hs
  rw [Stateful.within]
  cases x (read s) <;> exact h _ _ hs

theorem forM {f : α → EStateM ε σ PUnit} {l : List α} (h : ∀ a ∈ l, Preserves I (f a)) :
    Preserves I (l.forM f) := by
  induction l with
  | nil => exact .pure _
  | cons a l ih =>
    exact .bind (h a List.mem_cons_self) fun _ => ih fun b hb => h b (List.mem_cons_of_mem _ hb)

end Preserves

/-- A program on a part runs as it does alone. -/
theorem Runs.within {read : σ → τ} {write : σ → τ → σ} {err : ε → ε'} {x : EStateM ε τ α} {a : α}
    {P Q : τ → Prop} (hread : ∀ s t, read (write s t) = t) (h : Runs P x (.ok a) Q) :
    Runs (fun s => P (read s)) (Stateful.within read write err x) (.ok a)
      (fun s => Q (read s)) := by
  intro s hs
  obtain ⟨hout, hstate⟩ := h (read s) hs
  rw [Stateful.within]
  cases hx : x (read s) with
  | error e t =>
    rw [hx] at hout
    cases hout
  | ok b t =>
    rw [hx] at hout hstate
    cases hout
    refine ⟨rfl, ?_⟩
    change Q (read (write s t))
    rw [hread]
    exact hstate

/-- What `erase` leaves of a run of `x` is a run of `y`. -/
def Erases (erase : σ → τ) (x : EStateM ε σ α) (y : EStateM ε τ α) : Prop :=
  ∀ s, outcome (x s) = outcome (y (erase s)) ∧ erase (state (x s)) = state (y (erase s))

namespace Erases
variable {erase : σ → τ} {x : EStateM ε σ α} {y : EStateM ε τ α}

theorem pure (a : α) : Erases erase (Pure.pure a : EStateM ε σ α) (Pure.pure a) :=
  fun _ => ⟨rfl, rfl⟩

theorem modify {g : σ → σ} {g' : τ → τ} (h : ∀ s, erase (g s) = g' (erase s)) :
    Erases erase (modify g : EStateM ε σ PUnit) (modify g') := fun s => ⟨rfl, h s⟩

theorem bind {f : α → EStateM ε σ β} {f' : α → EStateM ε τ β} (hx : Erases erase x y)
    (hf : ∀ a, Erases erase (f a) (f' a)) : Erases erase (x >>= f) (y >>= f') := by
  intro s
  obtain ⟨hout, hstate⟩ := hx s
  rw [bind_run, bind_run]
  cases hxs : x s with
  | error e s' =>
    rw [hxs] at hout hstate
    cases hys : y (erase s) with
    | error e' t' =>
      rw [hys] at hout hstate
      cases hout
      exact ⟨rfl, hstate⟩
    | ok b t' =>
      rw [hys] at hout
      cases hout
  | ok a s' =>
    rw [hxs] at hout hstate
    cases hys : y (erase s) with
    | error e' t' =>
      rw [hys] at hout
      cases hout
    | ok b t' =>
      rw [hys] at hout hstate
      cases hout
      obtain rfl : erase s' = t' := hstate
      exact hf a s'

theorem ite {c : Prop} [Decidable c] {x' : EStateM ε σ α} {y' : EStateM ε τ α}
    (hx : Erases erase x y) (hx' : Erases erase x' y') :
    Erases erase (if c then x else x') (if c then y else y') := by
  split
  · exact hx
  · exact hx'

theorem forM {f : α → EStateM ε σ PUnit} {f' : α → EStateM ε τ PUnit} (l : List α)
    (h : ∀ a, Erases erase (f a) (f' a)) : Erases erase (l.forM f) (l.forM f') := by
  induction l with
  | nil => exact .pure _
  | cons a l ih => exact .bind (h a) fun _ => ih

/-- A program on a part that is not erased. -/
theorem within {read : σ → ρ} {write : σ → ρ → σ} {read' : τ → ρ} {write' : τ → ρ → τ}
    {err : ε → ε'} {z : EStateM ε ρ α} (hread : ∀ s, read' (erase s) = read s)
    (hwrite : ∀ s t, erase (write s t) = write' (erase s) t) :
    Erases erase (within read write err z) (within read' write' err z) := by
  intro s
  rw [Stateful.within, Stateful.within, hread]
  cases z (read s) with
  | ok a t => exact ⟨rfl, hwrite s t⟩
  | error e t => exact ⟨rfl, hwrite s t⟩

end Erases
end Stateful
