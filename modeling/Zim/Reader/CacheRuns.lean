import Mathlib.Data.Finset.Card
import Mathlib.Data.Finset.Insert
import Mathlib.Logic.Function.Basic
import Zim.Reader.Cache

/-! Runs of operations on a `zim::Cache` (cache.h): a hit gives what was put last, and a key that
was hit outlives all new keys. -/
namespace Zim.Cache
variable {κ ν : Type} [DecidableEq κ]

/-- `get(key, def)`. -/
def get (c : Cache κ ν) (key : κ) (default : ν) : ν × Cache κ ν :=
  let (value, c) := c.getx key
  (value.getD default, c)

inductive Op (κ ν : Type) where
  | put (key : κ) (value : ν)
  | getx (key : κ)
  | get (key : κ) (default : ν)
  | erase (key : κ)
  | setMaxElements (maxElements : ℕ)

def step (c : Cache κ ν) : Op κ ν → Cache κ ν
  | .put key value => c.put key value
  | .getx key => (c.getx key).2
  | .get key default => (c.get key default).2
  | .erase key => (c.erase key).2
  | .setMaxElements maxElements => c.setMaxElements maxElements

def run (c : Cache κ ν) (ops : List (Op κ ν)) : Cache κ ν := ops.foldl step c

/-- The values of a map without a capacity. -/
def record (values : κ → Option ν) : Op κ ν → κ → Option ν
  | .put key value => Function.update values key (some value)
  | .erase key => Function.update values key none
  | _ => values

/-- What the latest put of a key has left, if the key was not erased since. -/
def latest (ops : List (Op κ ν)) : κ → Option ν := ops.foldl record fun _ => none

omit [DecidableEq κ] in
def keys (c : Cache κ ν) : List κ := c.data.map Prod.fst

section Lookup
variable {key : κ} {data : List (κ × ν)}

theorem lookup_none (h : lookup key data = none) : key ∉ data.map Prod.fst := by
  rw [lookup, Option.map_eq_none_iff, List.find?_eq_none] at h
  intro hmem
  obtain ⟨v, hv, hkey⟩ := List.mem_map.mp hmem
  exact h v hv (by simpa using hkey)

theorem lookup_eq_none (h : key ∉ data.map Prod.fst) : lookup key data = none := by
  cases hl : lookup key data with
  | none => rfl
  | some r =>
    obtain ⟨hv, hkey, -⟩ := lookup_some hl
    exact absurd (hkey ▸ List.mem_map_of_mem hv) h

theorem lookup_isSome (h : key ∈ data.map Prod.fst) :
    ∃ value, lookup key data = some ((key, value), data.eraseP fun v => v.1 = key) := by
  cases hl : lookup key data with
  | none => exact absurd h (lookup_none hl)
  | some r =>
    obtain ⟨⟨k, value⟩, data'⟩ := r
    obtain ⟨-, rfl, rfl⟩ := lookup_some hl
    exact ⟨value, rfl⟩

/-- Where the keys are distinct, an erased key is gone. -/
theorem not_mem_eraseP (hd : (data.map Prod.fst).Nodup) :
    key ∉ (data.eraseP fun v => v.1 = key).map Prod.fst := by
  induction data with
  | nil => simp
  | cons u data ih =>
    obtain ⟨hu, hd⟩ := List.nodup_cons.mp hd
    by_cases hkey : u.1 = key
    · rw [List.eraseP_cons_of_pos (by simpa using hkey)]
      exact hkey ▸ hu
    · rw [List.eraseP_cons_of_neg (by simpa using hkey), List.map_cons, List.mem_cons, not_or]
      exact ⟨fun h => hkey h.symm, ih hd⟩

end Lookup

omit [DecidableEq κ] in
theorem insertNew_perm (c : Cache κ ν) (key : κ) (value : ν) :
    (c.insertNew key value).Perm ((key, value) :: c.data) := by
  unfold insertNew
  split_ifs with hfront
  · exact List.perm_append_singleton _ _
  · exact List.perm_insertIdx _ _ (Nat.le_of_not_lt hfront)

/-- The keys are distinct, there is room for them, and every value is the one recorded. -/
structure Coherent (values : κ → Option ν) (c : Cache κ ν) : Prop where
  distinct : c.keys.Nodup
  bounded : c.data.length ≤ c.maxElements
  current : c.All fun key value => values key = some value

section Coherent
variable {values : κ → Option ν} {c : Cache κ ν}

omit [DecidableEq κ] in
theorem coherent_new (n : ℕ) : Coherent (fun _ : κ => none) (new n : Cache κ ν) :=
  ⟨List.nodup_nil, Nat.zero_le _, all_new n⟩

/-- An entry comes to entries for other keys. -/
theorem Coherent.insert (h : Coherent values c) {key : κ} {value : ν}
    {rest data data' : List (κ × ν)} (hrest : rest.Sublist c.data)
    (hkey : key ∉ rest.map Prod.fst) (hperm : data.Perm ((key, value) :: rest))
    (hdata' : data'.Sublist data) (hlen : data'.length ≤ c.maxElements) (hits misses : UInt32) :
    Coherent (Function.update values key (some value))
      ⟨data', c.maxElements, hits, misses⟩ := by
  constructor
  · have hcons : (((key, value) :: rest).map Prod.fst).Nodup :=
      List.nodup_cons.mpr ⟨hkey, h.distinct.sublist (hrest.map _)⟩
    exact ((hperm.map Prod.fst).nodup_iff.mpr hcons).sublist (hdata'.map _)
  · exact hlen
  · intro u hu
    rcases List.mem_cons.mp (hperm.mem_iff.mp (hdata'.subset hu)) with heq | hmem
    · rw [heq]
      exact Function.update_self _ _ _
    · have hne : u.1 ≠ key := by
        intro heq
        exact hkey (heq ▸ List.mem_map_of_mem hmem)
      rw [Function.update_of_ne hne]
      exact h.current u (hrest.subset hmem)

theorem eraseP_length_lt {key : κ} {data : List (κ × ν)} {v : κ × ν} (hv : v ∈ data)
    (hkey : v.1 = key) : (data.eraseP fun v => v.1 = key).length < data.length := by
  have hlen := List.length_eraseP_of_mem hv (p := fun v => v.1 = key) (by simpa using hkey)
  have hpos := List.length_pos_of_mem hv
  omega

theorem Coherent.put (h : Coherent values c) (key : κ) (value : ν) :
    Coherent (Function.update values key (some value)) (c.put key value) := by
  unfold Cache.put
  split
  next v data' hl =>
    obtain ⟨hv, hkey, rfl⟩ := lookup_some hl
    have hlen := eraseP_length_lt hv hkey
    exact h.insert List.eraseP_sublist (not_mem_eraseP h.distinct) (.refl _) (.refl _)
      (hlen.trans_le h.bounded) _ _
  next hl =>
    have hperm := c.insertNew_perm key value
    have hlen : (c.insertNew key value).length = c.data.length + 1 := hperm.length_eq
    have hbounded := h.bounded
    simp only
    split_ifs with hmax
    · exact h.insert (.refl _) (lookup_none hl) hperm (List.dropLast_sublist _)
        (by rw [List.length_dropLast]; omega) _ _
    · exact h.insert (.refl _) (lookup_none hl) hperm (.refl _) (Nat.le_of_not_lt hmax) _ _

theorem Coherent.getx (h : Coherent values c) (key : κ) :
    Coherent values (c.getx key).2 ∧ ∀ value, (c.getx key).1 = some value →
      values key = some value := by
  refine ⟨?_, (h.current.getx key).1⟩
  unfold Cache.getx
  split
  next v data' hl =>
    obtain ⟨hv, rfl, rfl⟩ := lookup_some hl
    have hlen := eraseP_length_lt hv rfl
    have hself : Function.update values v.1 (some v.2) = values := by
      rw [← h.current v hv, Function.update_eq_self]
    rw [← hself]
    exact h.insert List.eraseP_sublist (not_mem_eraseP h.distinct) (.refl _) (.refl _)
      (hlen.trans_le h.bounded) _ _
  next => exact h

theorem Coherent.erase (h : Coherent values c) (key : κ) :
    Coherent (Function.update values key none) (c.erase key).2 := by
  have hother {data : List (κ × ν)} (hdata : data.Sublist c.data) (hkey : key ∉ data.map Prod.fst) :
      ∀ u ∈ data, Function.update values key none u.1 = some u.2 := by
    intro u hu
    have hne : u.1 ≠ key := by
      intro heq
      exact hkey (heq ▸ List.mem_map_of_mem hu)
    rw [Function.update_of_ne hne]
    exact h.current u (hdata.subset hu)
  unfold Cache.erase
  split
  next v data' hl =>
    obtain ⟨-, -, rfl⟩ := lookup_some hl
    have hsub : (c.data.eraseP fun v => v.1 = key).Sublist c.data := List.eraseP_sublist
    exact ⟨h.distinct.sublist (hsub.map _), hsub.length_le.trans h.bounded,
      hother hsub (not_mem_eraseP h.distinct)⟩
  next hl => exact ⟨h.distinct, h.bounded, hother (.refl _) (lookup_none hl)⟩

omit [DecidableEq κ] in
theorem Coherent.setMaxElements (h : Coherent values c) (n : ℕ) :
    Coherent values (c.setMaxElements n) := by
  constructor
  · exact h.distinct.sublist ((List.take_sublist n c.data).map _)
  · exact List.length_take_le n c.data
  · intro u hu
    exact h.current u (List.mem_of_mem_take hu)

theorem Coherent.step (h : Coherent values c) (op : Op κ ν) :
    Coherent (record values op) (c.step op) := by
  cases op with
  | put key value => exact h.put key value
  | getx key => exact (h.getx key).1
  | get key default => exact (h.getx key).1
  | erase key => exact h.erase key
  | setMaxElements n => exact h.setMaxElements n

theorem Coherent.run (h : Coherent values c) (ops : List (Op κ ν)) :
    Coherent (ops.foldl record values) (c.run ops) := by
  induction ops generalizing values c with
  | nil => exact h
  | cons op ops ih => exact ih (h.step op)

end Coherent

/-- The key, if it is held. -/
def ifHeld (c : Cache κ ν) (key : κ) : Finset κ := if key ∈ c.keys then {key} else ∅

/-- The keys that an operation moves to the front: those it hits or puts again. -/
def touched (c : Cache κ ν) : Op κ ν → Finset κ
  | .put key _ | .getx key | .get key _ => c.ifHeld key
  | .erase _ | .setMaxElements _ => ∅

/-- The keys hit or put again in a run. -/
def touchedIn (c : Cache κ ν) : List (Op κ ν) → Finset κ
  | [] => ∅
  | op :: ops => c.touched op ∪ (c.step op).touchedIn ops

/-- The operation neither erases the key nor changes the capacity. -/
def Spares (key : κ) : Op κ ν → Prop
  | .erase k => k ≠ key
  | .setMaxElements _ => False
  | _ => True

/-- The key is held, and in front of it there are keys of a set only. -/
def Behind (front : Finset κ) (key : κ) (data : List (κ × ν)) : Prop :=
  ∃ before value after, data = before ++ (key, value) :: after ∧ ∀ u ∈ before, u.1 ∈ front

section Behind
variable {front : Finset κ} {key : κ} {data : List (κ × ν)}

omit [DecidableEq κ] in
theorem Behind.mono (h : Behind front key data) {more : Finset κ} (hsub : front ⊆ more) :
    Behind more key data := by
  obtain ⟨before, value, after, rfl, hbefore⟩ := h
  exact ⟨before, value, after, rfl, fun u hu => hsub (hbefore u hu)⟩

omit [DecidableEq κ] in
theorem Behind.mem (h : Behind front key data) : key ∈ data.map Prod.fst := by
  obtain ⟨before, value, after, rfl, -⟩ := h
  simp

theorem Behind.eraseP (h : Behind front key data) {k : κ} (hk : k ≠ key) :
    Behind front key (data.eraseP fun v => v.1 = k) := by
  obtain ⟨before, value, after, rfl, hbefore⟩ := h
  by_cases hmem : ∃ u ∈ before, decide (u.1 = k) = true
  · obtain ⟨u, hu, hkey⟩ := hmem
    rw [@List.eraseP_append_left _ (fun v => v.1 = k) u hkey _ _ hu]
    exact ⟨_, value, after, rfl, fun u hu => hbefore u (List.mem_of_mem_eraseP hu)⟩
  · have hnone : ∀ u ∈ before, ¬ decide (u.1 = k) = true := by
      intro u hu hkey
      exact hmem ⟨u, hu, hkey⟩
    rw [List.eraseP_append_right _ hnone, List.eraseP_cons_of_neg (by simpa using hk.symm)]
    exact ⟨before, value, _, rfl, hbefore⟩

/-- A key that comes to the front is one more in front of the others. -/
theorem Behind.cons (h : Behind front key data) {k : κ} (value : ν) (hk : k ≠ key) :
    Behind (front ∪ {k}) key ((k, value) :: data.eraseP fun v => v.1 = k) := by
  obtain ⟨before, value', after, heq, hbefore⟩ := h.eraseP hk
  rw [heq]
  refine ⟨(k, value) :: before, value', after, rfl, ?_⟩
  intro u hu
  rcases List.mem_cons.mp hu with rfl | hu
  · simp
  · exact Finset.mem_union_left _ (hbefore u hu)

omit [DecidableEq κ] in
theorem Behind.first (value : ν) (data : List (κ × ν)) : Behind front key ((key, value) :: data) :=
  ⟨[], value, data, rfl, nofun⟩

/-- In front of a key there are at most the other keys of the set. -/
theorem Behind.before_length {before after : List (κ × ν)} {value : ν}
    (hd : ((before ++ (key, value) :: after).map Prod.fst).Nodup)
    (hbefore : ∀ u ∈ before, u.1 ∈ front) : before.length ≤ (front.erase key).card := by
  rw [List.map_append, List.map_cons, List.nodup_append] at hd
  obtain ⟨hnodup, -, hdisjoint⟩ := hd
  have hsub : (before.map Prod.fst).toFinset ⊆ front.erase key := by
    intro k hk
    obtain ⟨u, hu, rfl⟩ := List.mem_map.mp (List.mem_toFinset.mp hk)
    apply Finset.mem_erase.mpr
    exact ⟨hdisjoint u.1 (List.mem_map_of_mem hu) key List.mem_cons_self, hbefore u hu⟩
  have hcard := Finset.card_le_card hsub
  rwa [List.toFinset_card_of_nodup hnodup, List.length_map] at hcard

omit [DecidableEq κ] in
theorem insertIdx_behind (before after : List (κ × ν)) (v w : κ × ν) {i : ℕ}
    (hlt : before.length < i) (hle : i ≤ (before ++ v :: after).length) :
    ∃ u after', (before ++ v :: after).insertIdx i w = before ++ v :: u :: after' := by
  induction before generalizing i with
  | nil =>
    obtain ⟨i, rfl⟩ := Nat.exists_eq_succ_of_ne_zero (Nat.ne_of_gt hlt)
    have hlen : (after.insertIdx i w).length = after.length + 1 :=
      List.length_insertIdx_of_le_length (by simpa using hle) w
    obtain ⟨u, after', heq⟩ := List.exists_cons_of_length_eq_add_one hlen
    exact ⟨u, after', by rw [List.nil_append, List.insertIdx_succ_cons, heq, List.nil_append]⟩
  | cons b before ih =>
    obtain ⟨i, rfl⟩ := Nat.exists_eq_succ_of_ne_zero (Nat.ne_of_gt (Nat.zero_lt_of_lt hlt))
    obtain ⟨u, after', heq⟩ := ih (Nat.lt_of_succ_lt_succ hlt) (Nat.le_of_succ_le_succ hle)
    exact ⟨u, after', by rw [List.cons_append, List.insertIdx_succ_cons, heq, List.cons_append]⟩

/-- A new key comes behind the front half, and the last key of a full cache goes. -/
theorem Behind.insertNew {c : Cache κ ν} (h : Behind front key c.data) (hd : c.keys.Nodup)
    (hcard : (front.erase key).card < c.maxElements / 2) (k : κ) (value : ν) :
    Behind front key (c.insertNew k value) ∧ Behind front key (c.insertNew k value).dropLast := by
  obtain ⟨before, value', after, heq, hbefore⟩ := h
  unfold keys at hd
  rw [heq] at hd
  have hlen := before_length hd hbefore
  have hafter : ∃ u after', c.insertNew k value = before ++ (key, value') :: u :: after' := by
    unfold Cache.insertNew
    rw [heq]
    split_ifs with hfront
    · cases after with
      | nil => exact ⟨(k, value), [], by simp⟩
      | cons u after => exact ⟨u, after ++ [(k, value)], by simp⟩
    · exact insertIdx_behind _ _ _ _ (by omega) (Nat.le_of_not_lt hfront)
  obtain ⟨u, after', heq'⟩ := hafter
  rw [heq']
  refine ⟨⟨before, value', u :: after', rfl, hbefore⟩, ?_⟩
  rw [List.dropLast_append_cons, List.dropLast_cons_cons]
  exact ⟨before, value', _, rfl, hbefore⟩

end Behind

section Retention
variable {c : Cache κ ν} {front : Finset κ} {key : κ}

theorem step_maxElements (c : Cache κ ν) {op : Op κ ν} (hop : Spares key op) :
    (c.step op).maxElements = c.maxElements := by
  cases op with
  | put k value =>
    simp only [step, put]
    split <;> rfl
  | getx k =>
    simp only [step, getx]
    split <;> rfl
  | get k default =>
    simp only [step, get, getx]
    split <;> rfl
  | erase k =>
    simp only [step, erase]
    split <;> rfl
  | setMaxElements n => cases hop

/-- The key itself comes to the front, any other key in front of it. -/
theorem Behind.refresh (h : Behind front key c.data) (k : κ) (value : ν) :
    Behind (front ∪ {k}) key ((k, value) :: c.data.eraseP fun v => v.1 = k) := by
  by_cases heq : k = key
  · rw [heq]
    exact .first value _
  · exact h.cons value heq

theorem Behind.put (h : Behind front key c.data) (hd : c.keys.Nodup)
    (hcard : (front.erase key).card < c.maxElements / 2) (k : κ) (value : ν) :
    Behind (front ∪ c.ifHeld k) key (c.put k value).data := by
  unfold Cache.put ifHeld
  split_ifs with hk
  · obtain ⟨old, hl⟩ := lookup_isSome hk
    rw [hl]
    exact h.refresh k value
  · obtain ⟨hall, hdrop⟩ := h.insertNew hd hcard k value
    rw [lookup_eq_none hk, Finset.union_empty]
    simp only
    split_ifs
    · exact hdrop
    · exact hall

theorem Behind.getx (h : Behind front key c.data) (k : κ) :
    Behind (front ∪ c.ifHeld k) key (c.getx k).2.data := by
  unfold Cache.getx ifHeld
  split_ifs with hk
  · obtain ⟨value, hl⟩ := lookup_isSome hk
    rw [hl]
    exact h.refresh k value
  · rw [lookup_eq_none hk, Finset.union_empty]
    exact h

theorem Behind.step (h : Behind front key c.data) (hd : c.keys.Nodup)
    (hcard : (front.erase key).card < c.maxElements / 2) {op : Op κ ν} (hop : Spares key op) :
    Behind (front ∪ c.touched op) key (c.step op).data := by
  cases op with
  | put k value => exact h.put hd hcard k value
  | getx k => exact h.getx k
  | get k default => exact h.getx k
  | erase k =>
    simp only [Cache.step, Cache.erase, touched, Finset.union_empty]
    split
    next v data' hl =>
      obtain ⟨-, -, rfl⟩ := lookup_some hl
      exact h.eraseP hop
    next => exact h
  | setMaxElements n => cases hop

/-- As long as the other keys in front of it are fewer than half of the capacity, a key stays. -/
theorem Behind.run {values : κ → Option ν} (hc : Coherent values c) (h : Behind front key c.data)
    {ops : List (Op κ ν)} (hops : ∀ op ∈ ops, Spares key op)
    (hcard : ((front ∪ c.touchedIn ops).erase key).card < c.maxElements / 2) :
    Behind (front ∪ c.touchedIn ops) key (c.run ops).data := by
  induction ops generalizing values c front with
  | nil => exact h.mono Finset.subset_union_left
  | cons op ops ih =>
    have hop := hops op List.mem_cons_self
    have hfront : (front.erase key).card < c.maxElements / 2 :=
      lt_of_le_of_lt (Finset.card_le_card (Finset.erase_subset_erase _ Finset.subset_union_left))
        hcard
    rw [touchedIn, ← Finset.union_assoc] at hcard ⊢
    apply ih (hc.step op) (h.step hc.distinct hfront hop)
      (fun op hmem => hops op (List.mem_cons_of_mem _ hmem))
    rwa [step_maxElements c hop]

theorem getx_first {value : ν} (h : (c.getx key).1 = some value) :
    Behind ∅ key (c.getx key).2.data := by
  unfold Cache.getx at h ⊢
  split at h
  next v data' hl =>
    obtain ⟨-, rfl, rfl⟩ := lookup_some hl
    exact .first _ _
  next => cases h

end Retention

example : (((new 3).run [.put 1 10, .put 2 20, .getx 1, .put 3 30, .put 4 40, .put 5 50]).data :
    List (ℕ × ℕ)) = [(1, 10), (5, 50), (4, 40)] := by decide

end Zim.Cache
