import Mathlib.Data.List.Basic

/-! Enumerations by repeated calls, of which each returns an element until one returns none. -/
namespace Enumeration

variable {σ α : Type*} {next : σ → Option α → σ → Prop}

/-- The elements that the calls from a state on return until one returns none. -/
inductive Returns (next : σ → Option α → σ → Prop) : σ → List α → Prop
  | last {s t : σ} (h : next s none t) : Returns next s []
  | more {s t : σ} {a : α} {as : List α} (h : next s (some a) t) (rest : Returns next t as) :
    Returns next s (a :: as)

/-- Calls that are determined by their state return one list. -/
theorem Returns.unique (hfun : ∀ {s a b t u}, next s a t → next s b u → a = b ∧ t = u)
    {s : σ} {as bs : List α} (has : Returns next s as) (hbs : Returns next s bs) : as = bs := by
  induction has generalizing bs with
  | last h =>
    cases hbs with
    | last _ => rfl
    | more h' _ => cases (hfun h h').1
  | more h _ ih =>
    cases hbs with
    | last h' => cases (hfun h h').1
    | more h' rest =>
      obtain ⟨heq, rfl⟩ := hfun h h'
      cases heq
      rw [ih rest]

/-- What is pending is returned, where a call takes the first element of it. -/
theorem returns_of_pending (inv : σ → Prop) (pending : σ → List α)
    (hlast : ∀ s, inv s → pending s = [] → ∃ t, next s none t)
    (hmore : ∀ s a as, inv s → pending s = a :: as →
      ∃ t, next s (some a) t ∧ inv t ∧ pending t = as)
    {s : σ} (hs : inv s) : Returns next s (pending s) := by
  generalize hp : pending s = as
  induction as generalizing s with
  | nil =>
    obtain ⟨t, ht⟩ := hlast s hs hp
    exact .last ht
  | cons a as ih =>
    obtain ⟨t, ht, hinv, hrest⟩ := hmore s a as hs hp
    exact .more ht (ih hinv hrest)

end Enumeration
