import Mathlib.Tactic.SplitIfs
import Mathlib.Data.Nat.Basic
import Mathlib.Order.Basic
import Zim.Lib.Stateful

/-! A binary search over 32-bit indices whose probes may read a state, change it and throw. -/
namespace Bisect
open Stateful

section Search
variable {m : Type → Type} [Monad m]

/-- The turns of the search: `probe p` tells on which side of `p` it goes on. The result is the
index where a probe hit, and the last bounds. -/
def loop (probe : UInt32 → m Ordering) : ℕ → UInt32 → UInt32 → m (Option UInt32 × UInt32 × UInt32)
  | 0, l, u => return (none, l, u)
  | turns + 1, l, u =>
    if 1 < u - l then do
      let p := l + (u - l) / 2
      match ← probe p with
      | .lt => loop probe turns l p
      | .gt => loop probe turns p u
      | .eq => return (some p, l, u)
    else return (none, l, u)

/-- Every turn brings the bounds closer together. -/
def bisect (probe : UInt32 → m Ordering) (l u : UInt32) : m (Option UInt32 × UInt32 × UInt32) :=
  loop probe (u - l).toNat l u

end Search

section Middle
variable {l u : UInt32}

theorem toNat_sub_of_lt (hlt : l < u) : (u - l).toNat = u.toNat - l.toNat :=
  UInt32.toNat_sub_of_le _ _ (UInt32.le_of_lt hlt)

/-- The probed index lies between the bounds, nearer to both of them. -/
theorem middle (hlt : l < u) (hfar : 1 < u - l) :
    (l + (u - l) / 2).toNat = l.toNat + (u.toNat - l.toNat) / 2 ∧
      l < l + (u - l) / 2 ∧ l + (u - l) / 2 < u := by
  have hdist := toNat_sub_of_lt hlt
  have hu := u.toNat_lt
  rw [UInt32.lt_iff_toNat_lt] at hlt hfar
  have hp : (l + (u - l) / 2).toNat = l.toNat + (u.toNat - l.toNat) / 2 := by
    rw [UInt32.toNat_add, UInt32.toNat_div, hdist]
    simp only [UInt32.reduceToNat]
    omega
  rw [UInt32.lt_iff_toNat_lt, UInt32.lt_iff_toNat_lt, hp]
  simp only [hdist, UInt32.reduceToNat] at hfar
  omega

end Middle

/-- How a search between `l` and `u` ends: each last bound is a first one or has sent the search to
its other side, and without a hit there is nothing between them. -/
structure Ends (side : UInt32 → Ordering) (l u : UInt32) (r : Option UInt32 × UInt32 × UInt32) :
    Prop where
  lower : l ≤ r.2.1
  upper : r.2.2 ≤ u
  lt : r.2.1 < r.2.2
  fromLower : r.2.1 = l ∨ side r.2.1 = .gt
  fromUpper : r.2.2 = u ∨ side r.2.2 = .lt
  hit : ∀ p, r.1 = some p → side p = .eq ∧ l < p ∧ p < u
  miss : r.1 = none → r.2.2.toNat = r.2.1.toNat + 1

section Ends
variable {side : UInt32 → Ordering} {l u p : UInt32} {r : Option UInt32 × UInt32 × UInt32}

theorem Ends.left (h : Ends side l p r) (hp : side p = .lt) (hlt : p < u) : Ends side l u r where
  lower := h.lower
  upper := UInt32.le_trans h.upper (UInt32.le_of_lt hlt)
  lt := h.lt
  fromLower := h.fromLower
  fromUpper := .inr (h.fromUpper.elim (fun heq => heq ▸ hp) id)
  hit := fun q hq => ⟨(h.hit q hq).1, (h.hit q hq).2.1, UInt32.lt_trans (h.hit q hq).2.2 hlt⟩
  miss := h.miss

theorem Ends.right (h : Ends side p u r) (hp : side p = .gt) (hlt : l < p) : Ends side l u r where
  lower := UInt32.le_trans (UInt32.le_of_lt hlt) h.lower
  upper := h.upper
  lt := h.lt
  fromLower := .inr (h.fromLower.elim (fun heq => heq ▸ hp) id)
  fromUpper := h.fromUpper
  hit := fun q hq => ⟨(h.hit q hq).1, UInt32.lt_trans hlt (h.hit q hq).2.1, (h.hit q hq).2.2⟩
  miss := h.miss

theorem Ends.near (hlt : l < u) (h : u.toNat = l.toNat + 1) : Ends side l u (none, l, u) where
  lower := UInt32.le_refl l
  upper := UInt32.le_refl u
  lt := hlt
  fromLower := .inl rfl
  fromUpper := .inl rfl
  hit := nofun
  miss := fun _ => h

theorem loop_ends {turns : ℕ} (hlt : l < u) (hturns : u.toNat - l.toNat ≤ turns) :
    Ends side l u (loop (m := Id) side turns l u) := by
  induction turns generalizing l u with
  | zero =>
    rw [UInt32.lt_iff_toNat_lt] at hlt
    omega
  | succ turns ih =>
    unfold loop
    split_ifs with hfar
    · obtain ⟨hp, hlp, hpu⟩ := middle hlt hfar
      have hlp' := UInt32.lt_iff_toNat_lt.mp hlp
      have hpu' := UInt32.lt_iff_toNat_lt.mp hpu
      show Ends side l u (match side (l + (u - l) / 2) with
        | .lt => loop (m := Id) side turns l (l + (u - l) / 2)
        | .gt => loop (m := Id) side turns (l + (u - l) / 2) u
        | .eq => (some (l + (u - l) / 2), l, u))
      cases hside : side (l + (u - l) / 2) with
      | lt => exact (ih hlp (by omega)).left hside hpu
      | gt => exact (ih hpu (by omega)).right hside hlp
      | eq =>
        refine ⟨UInt32.le_refl l, UInt32.le_refl u, hlt, .inl rfl, .inl rfl, ?_, nofun⟩
        intro q hq
        cases hq
        exact ⟨hside, hlp, hpu⟩
    · refine .near hlt ?_
      have hdist := toNat_sub_of_lt hlt
      rw [UInt32.lt_iff_toNat_lt] at hlt hfar
      rw [hdist] at hfar
      simp only [UInt32.reduceToNat] at hfar
      omega

/-- A search between two bounds ends. -/
theorem bisect_ends (side : UInt32 → Ordering) (hlt : l < u) :
    Ends side l u (bisect (m := Id) side l u) :=
  loop_ends hlt (toNat_sub_of_lt hlt).ge

/-- A search that is sent to the right below `k` and to the left from there on meets at `k`, but
never below 1. -/
theorem Ends.cut {k : ℕ} (h : Ends side 0 u r) (hk : k ≤ u.toNat)
    (hside : ∀ p < u, side p = if p.toNat < k then .gt else .lt) :
    r.2.2.toNat = max 1 k ∧ r.2.1.toNat = max 1 k - 1 := by
  have hmiss : r.1 = none := by
    cases hhit : r.1 with
    | none => rfl
    | some p =>
      obtain ⟨hp, -, hpu⟩ := h.hit p hhit
      rw [hside p hpu] at hp
      split at hp <;> cases hp
  have hnext := h.miss hmiss
  have hlower : r.2.1.toNat = 0 ∨ r.2.1.toNat < k := by
    rcases h.fromLower with heq | hgt
    · exact .inl (by rw [heq]; rfl)
    · rw [hside _ (UInt32.lt_of_lt_of_le h.lt h.upper)] at hgt
      split at hgt
      next hlt => exact .inr hlt
      next => cases hgt
  have hupper : k ≤ r.2.2.toNat := by
    rcases h.fromUpper with heq | hlt
    · rwa [heq]
    · by_cases hu : r.2.2 < u
      · rw [hside _ hu] at hlt
        split at hlt
        next => cases hlt
        next hle => exact Nat.not_lt.mp hle
      · exact hk.trans (UInt32.le_iff_toNat_le.mp (UInt32.not_lt.mp hu))
  omega

end Ends

section Middles
variable {side : UInt32 → Ordering} {i j : ℕ} {l u : UInt32}

/-- The first middle from `i` up to `j`, as the range from `l` up to `u` is halved towards them. -/
def middleIn (i j : ℕ) : ℕ → ℕ → ℕ → Option ℕ
  | 0, _, _ => none
  | turns + 1, l, u =>
    if 1 < u - l then
      let p := l + (u - l) / 2
      if p < i then middleIn i j turns p u
      else if p < j then some p
      else middleIn i j turns l p
    else none

def firstMiddle (i j l u : ℕ) : Option ℕ := middleIn i j (u - l) l u

/-- The middle is where it is looked for. -/
theorem middleIn_some {turns m : ℕ} {l u : ℕ} (h : middleIn i j turns l u = some m) :
    i ≤ m ∧ m < j := by
  induction turns generalizing l u with
  | zero => cases h
  | succ turns ih =>
    simp only [middleIn] at h
    split_ifs at h with hfar hi hj
    · exact ih h
    · cases h
      exact ⟨Nat.le_of_not_lt hi, hj⟩
    · exact ih h

theorem firstMiddle_some {l u m : ℕ} (h : firstMiddle i j l u = some m) : i ≤ m ∧ m < j :=
  middleIn_some h

theorem loop_middleIn {turns : ℕ} (hlt : l < u)
    (hside : ∀ p, l < p → p < u → side p =
      if p.toNat < i then .gt else if p.toNat < j then .eq else .lt) :
    (loop (m := Id) side turns l u).1.map UInt32.toNat = middleIn i j turns l.toNat u.toNat := by
  induction turns generalizing l u with
  | zero => rfl
  | succ turns ih =>
    have hdist := toNat_sub_of_lt hlt
    unfold loop middleIn
    by_cases hfar : 1 < u - l
    · obtain ⟨hp, hlp, hpu⟩ := middle hlt hfar
      have hfar' : 1 < u.toNat - l.toNat := by
        rw [UInt32.lt_iff_toNat_lt, hdist] at hfar
        exact hfar
      rw [if_pos hfar, if_pos hfar']
      simp only [← hp]
      show Option.map _ (match side (l + (u - l) / 2) with
        | .lt => loop (m := Id) side turns l (l + (u - l) / 2)
        | .gt => loop (m := Id) side turns (l + (u - l) / 2) u
        | .eq => (some (l + (u - l) / 2), l, u)).1 = _
      rw [hside _ hlp hpu]
      split_ifs
      · exact ih hpu fun p hl hp => hside p (UInt32.lt_trans hlp hl) hp
      · rfl
      · exact ih hlp fun p hl hp => hside p hl (UInt32.lt_trans hp hpu)
    · have hnear : ¬ 1 < u.toNat - l.toNat := by
        rw [UInt32.lt_iff_toNat_lt, hdist] at hfar
        exact hfar
      rw [if_neg hfar, if_neg hnear]
      rfl

/-- A search that hits from `i` up to `j` hits at the first middle there. -/
theorem bisect_firstMiddle (hlt : l < u) (hside : ∀ p, l < p → p < u → side p =
      if p.toNat < i then .gt else if p.toNat < j then .eq else .lt) :
    (bisect (m := Id) side l u).1.map UInt32.toNat = firstMiddle i j l.toNat u.toNat := by
  rw [firstMiddle, ← toNat_sub_of_lt hlt]
  exact loop_middleIn hlt hside

end Middles

section Runs
variable {ε σ : Type} {P : σ → Prop} {probe : UInt32 → EStateM ε σ Ordering}
  {side : UInt32 → Ordering} {l u : UInt32}

theorem loop_runs {turns : ℕ} (hlt : l < u)
    (h : ∀ p, l < p → p < u → Runs P (probe p) (.ok (side p)) P) :
    Runs P (loop probe turns l u) (.ok (loop (m := Id) side turns l u)) P := by
  induction turns generalizing l u with
  | zero => exact .pure fun _ h => h
  | succ turns ih =>
    unfold loop
    split_ifs with hfar
    · obtain ⟨-, hlp, hpu⟩ := middle hlt hfar
      apply (h _ hlp hpu).bind
      show Runs P _ (.ok (match side (l + (u - l) / 2) with
        | .lt => loop (m := Id) side turns l (l + (u - l) / 2)
        | .gt => loop (m := Id) side turns (l + (u - l) / 2) u
        | .eq => (some (l + (u - l) / 2), l, u))) P
      cases side (l + (u - l) / 2) with
      | lt => exact ih hlp fun p hl hp => h p hl (UInt32.lt_trans hp hpu)
      | gt => exact ih hpu fun p hl hp => h p (UInt32.lt_trans hlp hl) hp
      | eq => exact .pure fun _ h => h
    · exact .pure fun _ h => h

/-- A search whose probes deliver `side` runs like the pure one. -/
theorem bisect_runs (hlt : l < u) (h : ∀ p, l < p → p < u → Runs P (probe p) (.ok (side p)) P) :
    Runs P (bisect probe l u) (.ok (bisect (m := Id) side l u)) P :=
  loop_runs hlt h

/-- A search keeps what its probes keep, even between bounds in the wrong order. -/
theorem loop_preserves {turns : ℕ} (h : ∀ p, Preserves P (probe p)) :
    Preserves P (loop probe turns l u) := by
  induction turns generalizing l u with
  | zero => exact .pure _
  | succ turns ih =>
    unfold loop
    refine .ite (.bind (h _) fun side => ?_) (.pure _)
    cases side with
    | lt => exact ih
    | gt => exact ih
    | eq => exact .pure _

theorem bisect_preserves (h : ∀ p, Preserves P (probe p)) : Preserves P (bisect probe l u) :=
  loop_preserves h

end Runs
end Bisect
