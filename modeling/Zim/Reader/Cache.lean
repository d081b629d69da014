import Mathlib.Data.List.InsertIdx

/-! `zim::Cache` (cache.h): a list of key-value pairs whose front half is in the order of the
last hits and whose back half is filled by new keys. -/
namespace Zim

structure Cache (κ ν : Type) where
  data : List (κ × ν)
  maxElements : ℕ
  hits : UInt32
  misses : UInt32

namespace Cache
variable {κ ν : Type}

def new (maxElements : ℕ) : Cache κ ν := ⟨[], maxElements, 0, 0⟩

def setMaxElements (c : Cache κ ν) (maxElements : ℕ) : Cache κ ν :=
  { c with maxElements := maxElements, data := c.data.take maxElements }

variable [DecidableEq κ]

/-- The first entry with a key, and the data without it. -/
def lookup (key : κ) (data : List (κ × ν)) : Option ((κ × ν) × List (κ × ν)) :=
  (data.find? fun v => v.1 = key).map fun v => (v, data.eraseP fun v => v.1 = key)

def erase (c : Cache κ ν) (key : κ) : Bool × Cache κ ν :=
  match lookup key c.data with
  | some (_, data) => (true, { c with data := data })
  | none => (false, c)

/-- Where a key that is not held is put: at the end while the front half is not full, and
otherwise at its end. -/
def insertNew (c : Cache κ ν) (key : κ) (value : ν) : List (κ × ν) :=
  if c.data.length < c.maxElements / 2 then c.data ++ [(key, value)]
  else c.data.insertIdx (c.maxElements / 2) (key, value)

def put (c : Cache κ ν) (key : κ) (value : ν) : Cache κ ν :=
  match lookup key c.data with
  | some (_, data) => { c with data := (key, value) :: data }
  | none =>
    let data := c.insertNew key value
    { c with
      misses := c.misses + 1
      data := if c.maxElements < data.length then data.dropLast else data }

def getx (c : Cache κ ν) (key : κ) : Option ν × Cache κ ν :=
  match lookup key c.data with
  | some (v, data) => (some v.2, { c with data := v :: data, hits := c.hits + 1 })
  | none => (none, c)

omit [DecidableEq κ] in
theorem mem_insertNew {c : Cache κ ν} {key : κ} {value : ν} {u : κ × ν}
    (hu : u ∈ c.insertNew key value) : u = (key, value) ∨ u ∈ c.data := by
  unfold insertNew at hu
  split_ifs at hu with hfront
  · rcases List.mem_append.mp hu with hu | hu
    · exact .inr hu
    · exact .inl (List.mem_singleton.mp hu)
  · exact List.eq_or_mem_of_mem_insertIdx hu

theorem lookup_some {key : κ} {data data' : List (κ × ν)} {v : κ × ν}
    (h : lookup key data = some (v, data')) :
    v ∈ data ∧ v.1 = key ∧ data' = data.eraseP fun v => v.1 = key := by
  rw [lookup, Option.map_eq_some_iff] at h
  obtain ⟨u, hu, he⟩ := h
  cases he
  exact ⟨List.mem_of_find?_eq_some hu, by simpa using List.find?_some hu, rfl⟩

/-- Every entry held satisfies `P`. -/
def All (P : κ → ν → Prop) (c : Cache κ ν) : Prop := ∀ v ∈ c.data, P v.1 v.2

section All
variable {P : κ → ν → Prop} {c : Cache κ ν}

omit [DecidableEq κ] in
theorem all_new (n : ℕ) : (new n : Cache κ ν).All P := nofun

omit [DecidableEq κ] in
theorem All.imp {Q : κ → ν → Prop} (h : c.All P) (hi : ∀ k v, P k v → Q k v) : c.All Q :=
  fun v hv => hi _ _ (h v hv)

theorem All.put (h : c.All P) {key : κ} {value : ν} (hv : P key value) :
    (c.put key value).All P := by
  intro u hu
  simp only [Cache.put] at hu
  split at hu
  next v data' hl =>
    obtain ⟨-, -, rfl⟩ := lookup_some hl
    rcases List.mem_cons.mp hu with rfl | hu
    · exact hv
    · exact h u (List.mem_of_mem_eraseP hu)
  next =>
    have hmem : u = (key, value) ∨ u ∈ c.data := by
      apply mem_insertNew
      simp only at hu
      split_ifs at hu with hmax
      · exact (List.dropLast_sublist _).subset hu
      · exact hu
    rcases hmem with rfl | hu
    · exact hv
    · exact h u hu

/-- A hit was held under its key, and a lookup keeps what is held. -/
theorem All.getx (h : c.All P) (key : κ) :
    (∀ v, (c.getx key).1 = some v → P key v) ∧ (c.getx key).2.All P := by
  simp only [Cache.getx]
  split
  next v data' hl =>
    obtain ⟨hv, rfl, rfl⟩ := lookup_some hl
    refine ⟨fun u hu => by cases hu; exact h v hv, fun u hu => ?_⟩
    rcases List.mem_cons.mp hu with rfl | hu
    · exact h _ hv
    · exact h u (List.mem_of_mem_eraseP hu)
  next => exact ⟨nofun, h⟩

end All
end Cache
end Zim
