import Mathlib.Data.List.Forall2

/-! Elements with names, some of which refer to another element by its name. -/
namespace Links
variable {α β κ : Type}

/-- A reference that leads out of the list: every element with the name it refers to is one too,
if there is any. -/
inductive Dangling (name : α → κ) (target : α → Option κ) (l : List α) : α → Prop where
  | intro {a : α} {k : κ} (h : target a = some k)
      (hall : ∀ b ∈ l, name b = k → Dangling name target l b) : Dangling name target l a

section Map
variable {name : α → κ} {target : α → Option κ} {name' : β → κ} {target' : β → Option κ}
  {l : List α} {m : List β}

/-- Elements with the same names and references are dangling or not alike. -/
theorem Dangling.map (h : List.Forall₂ (fun a b => name a = name' b ∧ target a = target' b) l m)
    {a : α} {b : β} (hab : target a = target' b) (ha : Dangling name target l a) :
    Dangling name' target' m b := by
  induction ha generalizing b with
  | intro hk _ ih =>
    refine .intro (hab.symm.trans hk) fun c hc hname => ?_
    obtain ⟨i, hi, rfl⟩ := List.getElem_of_mem hc
    have hi' : i < l.length := h.length_eq ▸ hi
    obtain ⟨hname', htarget⟩ := h.get hi' hi
    exact ih _ (List.getElem_mem hi') (hname'.trans hname) htarget

theorem dangling_iff (h : List.Forall₂ (fun a b => name a = name' b ∧ target a = target' b) l m)
    {a : α} {b : β} (hab : target a = target' b) :
    Dangling name target l a ↔ Dangling name' target' m b :=
  ⟨.map h hab, .map (h.flip.imp fun _ _ heq => ⟨heq.1.symm, heq.2.symm⟩) hab.symm⟩

end Map

section Mem
variable {name : α → κ} {target : α → Option κ} {l m : List α}

theorem Dangling.perm (h : l.Perm m) {a : α} (ha : Dangling name target l a) :
    Dangling name target m a := by
  induction ha with
  | intro hk _ ih => exact .intro hk fun b hb => ih b (h.mem_iff.mpr hb)

/-- Where every reference leads to an element, none is dangling. -/
theorem not_dangling (hm : m ⊆ l)
    (h : ∀ a ∈ m, ∀ k, target a = some k → ∃ b ∈ m, name b = k) {a : α} (ha : a ∈ m) :
    ¬ Dangling name target l a := by
  intro hd
  induction hd with
  | intro hk _ ih =>
    obtain ⟨b, hb, hname⟩ := h _ ha _ hk
    exact ih b (hm hb) hname hb

end Mem
end Links
