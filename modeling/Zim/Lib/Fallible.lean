import Mathlib.Data.List.Forall2

/-! Computations in `Except`, taken apart where they succeed. -/
namespace Fallible
variable {ε α β : Type}

theorem bind_eq_ok {x : Except ε α} {f : α → Except ε β} {b : β} :
    (x >>= f) = .ok b ↔ ∃ a, x = .ok a ∧ f a = .ok b := by
  cases x with
  | error e => simp [bind, Except.bind]
  | ok a => simp [bind, Except.bind]

theorem exists_ok {x : Except ε α} (h : x.isOk = true) : ∃ a, x = .ok a := by
  cases x with
  | error e => cases h
  | ok a => exact ⟨a, rfl⟩

/-- Whether a computation succeeds with a value that passes a test. -/
def passes (x : Except ε α) (test : α → Bool) : Bool :=
  match x with
  | .ok a => test a
  | .error _ => false

theorem exists_of_passes {x : Except ε α} {test : α → Bool} (h : passes x test = true) :
    ∃ a, x = .ok a ∧ test a = true := by
  cases x with
  | error e => cases h
  | ok a => exact ⟨a, rfl, h⟩

@[simp] theorem pure_eq_ok {a b : α} : (pure a : Except ε α) = .ok b ↔ a = b := by
  simp [pure, Except.pure]

@[simp] theorem throw_ne_ok (e : ε) (a : α) : (throw e : Except ε α) ≠ .ok a := nofun

theorem mapM_ok {f : α → Except ε β} {l : List α} {l' : List β} (h : l.mapM f = .ok l') :
    List.Forall₂ (fun a b => f a = .ok b) l l' := by
  induction l generalizing l' with
  | nil =>
    simp only [List.mapM_nil, pure_eq_ok] at h
    subst h
    exact .nil
  | cons a l ih =>
    rw [List.mapM_cons, bind_eq_ok] at h
    obtain ⟨b, hb, h⟩ := h
    rw [bind_eq_ok] at h
    obtain ⟨bs, hbs, h⟩ := h
    rw [pure_eq_ok] at h
    subst h
    exact .cons hb (ih hbs)

/-- The loop over the elements returns if every turn does. -/
theorem mapM_exists {f : α → Except ε β} {l : List α} (h : ∀ a ∈ l, ∃ b, f a = .ok b) :
    ∃ l', l.mapM f = .ok l' := by
  induction l with
  | nil => exact ⟨[], rfl⟩
  | cons a l ih =>
    obtain ⟨b, hb⟩ := h a List.mem_cons_self
    obtain ⟨l', hl'⟩ := ih fun a ha => h a (List.mem_cons_of_mem _ ha)
    refine ⟨b :: l', ?_⟩
    rw [List.mapM_cons, hb]
    exact bind_eq_ok.mpr ⟨b, rfl, bind_eq_ok.mpr ⟨l', hl', rfl⟩⟩

section Turns
variable {f : ℕ → Except ε α}

/-- With enough turns the result is always the same. -/
def Settles (f : ℕ → Except ε α) (a : α) : Prop := ∃ m, ∀ turns ≥ m, f turns = .ok a

theorem settles_const (a : α) : Settles (fun _ => (.ok a : Except ε α)) a := ⟨0, fun _ _ => rfl⟩

/-- A computation that goes on with one turn less. -/
theorem Settles.succ {a : α} {b : β} (h : Settles f a) {g : ℕ → Except ε β}
    (hg : ∀ turns, f turns = .ok a → g (turns + 1) = .ok b) : Settles g b := by
  obtain ⟨m, hm⟩ := h
  refine ⟨m + 1, fun turns hturns => ?_⟩
  obtain ⟨turns, rfl⟩ : ∃ n, turns = n + 1 := ⟨turns - 1, by omega⟩
  exact hg turns (hm turns (by omega))

/-- Two computations one after the other. -/
theorem Settles.and {a : α} {b : β} (h : Settles f a) {g : ℕ → Except ε β} (h' : Settles g b) :
    ∃ m, ∀ turns ≥ m, f turns = .ok a ∧ g turns = .ok b := by
  obtain ⟨m, hm⟩ := h
  obtain ⟨n, hn⟩ := h'
  exact ⟨max m n, fun turns hturns => ⟨hm turns (by omega), hn turns (by omega)⟩⟩

theorem Settles.bind {a : α} {b : β} (h : Settles f a) {g : ℕ → α → Except ε β}
    (h' : Settles (fun turns => g turns a) b) : Settles (fun turns => f turns >>= g turns) b := by
  obtain ⟨m, hm⟩ := h.and h'
  refine ⟨m, fun turns hturns => ?_⟩
  obtain ⟨hf, hg⟩ := hm turns hturns
  exact bind_eq_ok.mpr ⟨a, hf, hg⟩

end Turns

end Fallible
