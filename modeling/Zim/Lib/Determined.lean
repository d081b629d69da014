import Mathlib.Logic.Basic
import Zim.Lib.Erasure

/-! Programs that read from something that does not change, through a state that may lose access to
it: what they return is what a program without a state does. -/
namespace Stateful
variable {ε ε' σ τ α β : Type}

/-- From every state with `P`, a program that returns has the value that `r` has and keeps `P`. An
exception leaves a state with `E`, and is the one of `r` unless access has been lost before. -/
def Follows (P : Bool → σ → Prop) (E : ε → σ → Prop) (x : EStateM ε σ α) (r : Except ε α) :
    Prop :=
  ∀ lost s, P lost s →
    match x s with
    | .ok v s' => r = .ok v ∧ P lost s'
    | .error e s' => (lost = false → r = .error e) ∧ E e s'

namespace Follows
variable {P : Bool → σ → Prop} {E : ε → σ → Prop} {x : EStateM ε σ α} {r : Except ε α}

theorem pure (a : α) : Follows P E (Pure.pure a) (.ok a) := fun _ _ hs => ⟨rfl, hs⟩

theorem throw {e : ε} (h : ∀ lost s, P lost s → E e s) :
    Follows P E (throw e : EStateM ε σ α) (.error e) :=
  fun lost s hs => ⟨fun _ => rfl, h lost s hs⟩

theorem throw_bind {e : ε} {f : α → EStateM ε σ β} (h : ∀ lost s, P lost s → E e s) :
    Follows P E (MonadExcept.throw e >>= f) (.error e) :=
  fun lost s hs => ⟨fun _ => rfl, h lost s hs⟩

theorem modify {g : σ → σ} (h : ∀ lost s, P lost s → P lost (g s)) :
    Follows P E (modify g : EStateM ε σ PUnit) (.ok ⟨⟩) := fun lost s hs => ⟨rfl, h lost s hs⟩

theorem bind {f : α → EStateM ε σ β} {g : α → Except ε β} (hx : Follows P E x r)
    (hf : ∀ v, r = .ok v → Follows P E (f v) (g v)) : Follows P E (x >>= f) (r >>= g) := by
  intro lost s hs
  have hrun := hx lost s hs
  rw [bind_run]
  cases hxs : x s with
  | ok v s' =>
    rw [hxs] at hrun
    obtain ⟨rfl, hs'⟩ := hrun
    exact hf v rfl lost s' hs'
  | error e s' =>
    rw [hxs] at hrun
    refine ⟨fun hlost => ?_, hrun.2⟩
    rw [hrun.1 hlost]
    rfl

/-- A step before a program without one. -/
theorem seq {y : EStateM ε σ β} {q : Except ε β} {v : α} (hx : Follows P E x (.ok v))
    (hy : Follows P E y q) : Follows P E (do let _ ← x; y) q :=
  hx.bind fun _ _ => hy

theorem get_bind {k : σ → EStateM ε σ α} (h : ∀ lost s, P lost s → Follows P E (k s) r) :
    Follows P E (get >>= k) r := fun lost s hs => h lost s hs lost s hs

theorem forM {f : α → EStateM ε σ PUnit} {g : α → Except ε PUnit} (l : List α)
    (h : ∀ a, Follows P E (f a) (g a)) : Follows P E (l.forM f) (l.forM g) := by
  induction l with
  | nil => exact .pure _
  | cons a l ih => exact .bind (h a) fun _ _ => ih

/-- A program on a part of the state. -/
theorem within {Q : Bool → τ → Prop} {F : ε' → τ → Prop} {read : σ → τ} {write : σ → τ → σ}
    {err : ε' → ε} {y : EStateM ε' τ α} {q : Except ε' α} (hy : Follows Q F y q)
    (hread : ∀ lost s, P lost s → Q lost (read s))
    (hwrite : ∀ lost s t, P lost s → Q lost t → P lost (write s t))
    (herr : ∀ lost s e t, P lost s → F e t → E (err e) (write s t)) :
    Follows P E (within read write err y) (q.mapError err) := by
  intro lost s hs
  have hrun := hy lost (read s) (hread lost s hs)
  rw [Stateful.within]
  cases hys : y (read s) with
  | ok v t =>
    rw [hys] at hrun
    obtain ⟨rfl, ht⟩ := hrun
    exact ⟨rfl, hwrite lost s t hs ht⟩
  | error e t =>
    rw [hys] at hrun
    refine ⟨fun hlost => ?_, herr lost s e t hs hrun.2⟩
    rw [hrun.1 hlost]
    rfl

/-- What every run leaves. -/
theorem leaves {J : σ → Prop} {lost : Bool} {s : σ} (h : Follows P E x r) (hs : P lost s)
    (hP : ∀ lost s, P lost s → J s) (hE : ∀ e s, E e s → J s) : J (state (x s)) := by
  have hrun := h lost s hs
  cases hxs : x s with
  | ok v s' =>
    rw [hxs] at hrun
    exact hP lost s' hrun.2
  | error e s' =>
    rw [hxs] at hrun
    exact hE e s' hrun.2

end Follows

section Loops
variable {f : α → Except ε PUnit} {pre l : List α} {a : α} {e : ε}

theorem forM_cons_ok (ha : f a = .ok ⟨⟩) : (a :: l).forM f = l.forM f := by
  show (f a >>= fun _ => l.forM f) = _
  rw [ha]
  rfl

theorem forM_cons_error (ha : f a = .error e) : (a :: l).forM f = .error e := by
  show (f a >>= fun _ => l.forM f) = _
  rw [ha]
  rfl

theorem forM_append_ok (hpre : ∀ b ∈ pre, f b = .ok ⟨⟩) : (pre ++ l).forM f = l.forM f := by
  induction pre with
  | nil => rfl
  | cons b pre ih =>
    rw [List.cons_append, forM_cons_ok (hpre b List.mem_cons_self)]
    exact ih fun c hc => hpre c (List.mem_cons_of_mem _ hc)

/-- A loop throws what its first element that throws does. -/
theorem forM_error_iff : l.forM f = .error e ↔
    ∃ pre a post, l = pre ++ a :: post ∧ (∀ b ∈ pre, f b = .ok ⟨⟩) ∧ f a = .error e := by
  constructor
  · intro h
    induction l with
    | nil => cases h
    | cons b l ih =>
      cases hb : f b with
      | error e' =>
        rw [forM_cons_error hb] at h
        cases h
        exact ⟨[], b, l, rfl, List.forall_mem_nil _, hb⟩
      | ok v =>
        rw [forM_cons_ok hb] at h
        obtain ⟨pre, a, post, rfl, hpre, ha⟩ := ih h
        exact ⟨b :: pre, a, post, rfl, List.forall_mem_cons.mpr ⟨hb, hpre⟩, ha⟩
  · rintro ⟨pre, a, post, rfl, hpre, ha⟩
    rw [forM_append_ok hpre, forM_cons_error ha]

end Loops

end Stateful
