import Mathlib.Init

/-! Programs that change a state and may throw, the state being kept by an exception. -/
namespace Stateful
variable {ε σ α β : Type}

@[simp] theorem pure_run (a : α) (s : σ) : (pure a : EStateM ε σ α) s = .ok a s := rfl

@[simp] theorem get_run (s : σ) : (get : EStateM ε σ σ) s = .ok s s := rfl

@[simp] theorem set_run (s s' : σ) : (set s' : EStateM ε σ PUnit) s = .ok ⟨⟩ s' := rfl

@[simp] theorem modify_run (f : σ → σ) (s : σ) :
    (modify f : EStateM ε σ PUnit) s = .ok ⟨⟩ (f s) := rfl

@[simp] theorem modifyGet_run (f : σ → α × σ) (s : σ) :
    (modifyGet f : EStateM ε σ α) s = .ok (f s).1 (f s).2 := rfl

@[simp] theorem throw_run (e : ε) (s : σ) : (throw e : EStateM ε σ α) s = .error e s := rfl

theorem bind_run (x : EStateM ε σ α) (f : α → EStateM ε σ β) (s : σ) :
    (x >>= f) s = match x s with
      | .ok a s' => f a s'
      | .error e s' => .error e s' := rfl

theorem map_run (x : EStateM ε σ α) (f : α → β) (s : σ) :
    (f <$> x) s = match x s with
      | .ok a s' => .ok (f a) s'
      | .error e s' => .error e s' := by
  simp only [Functor.map, EStateM.map]
  cases x s <;> rfl

theorem bind_ok {x : EStateM ε σ α} {s s' : σ} {a : α} (h : x s = .ok a s')
    (f : α → EStateM ε σ β) : (x >>= f) s = f a s' := by
  simp only [bind, EStateM.bind, h]

theorem bind_error {x : EStateM ε σ α} {s s' : σ} {e : ε} (h : x s = .error e s')
    (f : α → EStateM ε σ β) : (x >>= f) s = .error e s' := by
  simp only [bind, EStateM.bind, h]

/-- What is known of a sequence that ended without an exception. -/
theorem bind_eq_ok {x : EStateM ε σ α} {f : α → EStateM ε σ β} {s s'' : σ} {b : β}
    (h : (x >>= f) s = .ok b s'') : ∃ a s', x s = .ok a s' ∧ f a s' = .ok b s'' := by
  rw [bind_run] at h
  cases hx : x s with
  | ok a s' =>
    rw [hx] at h
    exact ⟨a, s', rfl, h⟩
  | error e s' =>
    rw [hx] at h
    cases h

/-- The value or the exception of a run. -/
def outcome : EStateM.Result ε σ α → Except ε α
  | .ok a _ => .ok a
  | .error e _ => .error e

/-- The state that a run leaves. -/
def state : EStateM.Result ε σ α → σ
  | .ok _ s => s
  | .error _ s => s

theorem eq_ok_of_outcome {r : EStateM.Result ε σ α} {a : α} (h : outcome r = .ok a) :
    r = .ok a (state r) := by
  cases r with
  | ok b s =>
    cases h
    rfl
  | error e s => cases h

@[simp] theorem outcome_map (g : α → β) (x : EStateM ε σ α) (s : σ) :
    outcome ((g <$> x) s) = g <$> outcome (x s) := by
  rw [map_run]
  cases x s <;> rfl

@[simp] theorem state_map (g : α → β) (x : EStateM ε σ α) (s : σ) :
    state ((g <$> x) s) = state (x s) := by
  rw [map_run]
  cases x s <;> rfl

/-- From every state with `P` the program ends with the outcome `r`, in a state with `Q`. -/
def Runs (P : σ → Prop) (x : EStateM ε σ α) (r : Except ε α) (Q : σ → Prop) : Prop :=
  ∀ s, P s → outcome (x s) = r ∧ Q (state (x s))

namespace Runs
variable {P P' Q R : σ → Prop} {x : EStateM ε σ α} {f : α → EStateM ε σ β} {a : α} {r : Except ε β}

theorem pure (h : ∀ s, P s → Q s) : Runs P (Pure.pure a : EStateM ε σ α) (.ok a) Q :=
  fun s hs => ⟨rfl, h s hs⟩

theorem throw {e : ε} (h : ∀ s, P s → Q s) : Runs P (throw e : EStateM ε σ α) (.error e) Q :=
  fun s hs => ⟨rfl, h s hs⟩

theorem modify {g : σ → σ} (h : ∀ s, P s → Q (g s)) :
    Runs P (modify g : EStateM ε σ PUnit) (.ok ⟨⟩) Q :=
  fun s hs => ⟨rfl, h s hs⟩

theorem bind (hx : Runs P x (.ok a) Q) (hf : Runs Q (f a) r R) : Runs P (x >>= f) r R := by
  intro s hs
  obtain ⟨hout, hstate⟩ := hx s hs
  rw [bind_run]
  cases hxs : x s with
  | error e s' =>
    rw [hxs] at hout
    cases hout
  | ok b s' =>
    rw [hxs] at hout hstate
    cases hout
    exact hf s' hstate

theorem bind_error {e : ε} (hx : Runs P x (.error e) Q) : Runs P (x >>= f) (.error e) Q := by
  intro s hs
  obtain ⟨hout, hstate⟩ := hx s hs
  rw [bind_run]
  cases hxs : x s with
  | ok b s' =>
    rw [hxs] at hout
    cases hout
  | error e' s' =>
    rw [hxs] at hout hstate
    cases hout
    exact ⟨rfl, hstate⟩

theorem map {r : Except ε α} (g : α → β) (h : Runs P x r Q) : Runs P (g <$> x) (g <$> r) Q := by
  intro s hs
  obtain ⟨hout, hstate⟩ := h s hs
  rw [outcome_map, state_map, hout]
  exact ⟨rfl, hstate⟩

/-- What is read from the state may be used with all that is known of it. -/
theorem get_bind {k : σ → EStateM ε σ β} (h : ∀ s, P s → Runs P (k s) r Q) :
    Runs P (get >>= k) r Q := fun s hs => h s hs s hs

/-- A value that a step takes out of the state, and what the rest of the program does with it. -/
theorem modifyGet_bind {g : σ → α × σ} (h : ∀ s, P s → Q (g s).2 ∧ Runs Q (f (g s).1) r R) :
    Runs P (MonadStateOf.modifyGet g >>= f) r R := fun s hs => (h s hs).2 _ (h s hs).1

theorem mono (h : Runs P x (.ok a) Q) (hp : ∀ s, P' s → P s) (hq : ∀ s, Q s → R s) :
    Runs P' x (.ok a) R := fun s hs => ⟨(h s (hp s hs)).1, hq _ (h s (hp s hs)).2⟩

end Runs

/-- Every run of the program, whatever its outcome, keeps `I`. -/
def Preserves (I : σ → Prop) (x : EStateM ε σ α) : Prop := ∀ s, I s → I (state (x s))

namespace Preserves
variable {I : σ → Prop} {x : EStateM ε σ α} {f : α → EStateM ε σ β}

theorem pure (a : α) : Preserves I (Pure.pure a : EStateM ε σ α) := fun _ h => h

theorem throw (e : ε) : Preserves I (throw e : EStateM ε σ α) := fun _ h => h

theorem throw_bind (e : ε) : Preserves I (MonadExcept.throw e >>= f) := fun _ h => h

theorem get : Preserves I (get : EStateM ε σ σ) := fun _ h => h

theorem modify {g : σ → σ} (h : ∀ s, I s → I (g s)) :
    Preserves I (modify g : EStateM ε σ PUnit) := h

theorem modifyGet {g : σ → α × σ} (h : ∀ s, I s → I (g s).2) :
    Preserves I (MonadStateOf.modifyGet g : EStateM ε σ α) := h

theorem bind (hx : Preserves I x) (hf : ∀ a, Preserves I (f a)) : Preserves I (x >>= f) := by
  intro s hs
  have hstate := hx s hs
  rw [bind_run]
  cases hxs : x s with
  | error e s' => rwa [hxs] at hstate
  | ok a s' =>
    rw [hxs] at hstate
    exact hf a s' hstate

theorem ite {c : Prop} [Decidable c] {y : EStateM ε σ α} (hx : Preserves I x)
    (hy : Preserves I y) : Preserves I (if c then x else y) := by
  split
  · exact hx
  · exact hy

end Preserves

theorem Runs.and {I P Q : σ → Prop} {x : EStateM ε σ α} {r : Except ε α} (h : Runs P x r Q)
    (hI : Preserves I x) : Runs (fun s => P s ∧ I s) x r (fun s => Q s ∧ I s) :=
  fun s hs => ⟨(h s hs.1).1, (h s hs.1).2, hI s hs.2⟩

theorem Runs.preserves {I : σ → Prop} {x : EStateM ε σ α} {r : Except ε α} (h : Runs I x r I) :
    Preserves I x := fun s hs => (h s hs).2

/-- A step without its result. -/
theorem Preserves.discard {I : σ → Prop} {x : EStateM ε σ α} (h : Preserves I x) :
    Preserves I (do let _ ← x) := h.bind fun _ => .pure _

end Stateful
