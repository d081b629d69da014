import Mathlib.Algebra.Group.Nat.Even
import Mathlib.Data.List.Nodup
import Mathlib.Logic.Function.Basic

/-! `SmartPtr` and `RefCounted` (smartptr.h, refcounted.h), by which blobs hold their cluster, and
files and clusters what is behind them. -/
namespace Zim.SmartPtr

/-- A `SmartPtr` that exists, by the name of its place: a variable, or a part of an object. -/
structure Pointer where
  name : ℕ
  owner : Option ℕ
  object : Option ℕ
  deriving DecidableEq, Repr

/-- The pointers, the counts of the objects that exist, the number of objects made so far, and those
of them that were deleted. -/
structure Memory where
  pointers : List Pointer
  rc : ℕ → Option UInt32
  next : ℕ
  deleted : List ℕ

inductive MemoryError where
  /-- A call of `addRef` or `release` of an object that was deleted. -/
  | object (o : ℕ)
  /-- A use of a pointer that does not exist any more. -/
  | pointer (name : ℕ)
  /-- The turns given to `releaseAll` are used up. -/
  | turns
  deriving DecidableEq, Repr

namespace Memory

def empty : Memory := ⟨[], fun _ => none, 0, []⟩

def find (m : Memory) (name : ℕ) : Option Pointer := m.pointers.find? fun p => p.name = name

/-- `object = ptr.object` of the pointer with the given name. -/
def store (m : Memory) (name : ℕ) (object : Option ℕ) : Memory :=
  { m with pointers := m.pointers.map fun p => if p.name = name then { p with object } else p }

/-- `if (object) object->addRef()`. -/
def addRef (m : Memory) : Option ℕ → Except MemoryError Memory
  | none => .ok m
  | some o =>
    match m.rc o with
    | none => .error (.object o)
    | some n => .ok { m with rc := Function.update m.rc o (some (n + 1)) }

/-- `delete this`, whose destructor takes the pointers in the object with it. -/
def delete (m : Memory) (o : ℕ) : Memory :=
  { m with
    pointers := m.pointers.filter fun p => p.owner ≠ some o
    rc := Function.update m.rc o none
    deleted := o :: m.deleted }

/-- The objects that the pointers in an object point to. -/
def members (m : Memory) (o : ℕ) : List ℕ :=
  (m.pointers.filter fun p => p.owner = some o).filterMap Pointer.object

/-- `release` of some objects one after another: those that a deleted object has pointed to are
released before the others. -/
def releaseAll : ℕ → List ℕ → Memory → Except MemoryError Memory
  | _, [], m => .ok m
  | 0, _ :: _, _ => .error .turns
  | turns + 1, o :: os, m =>
    match m.rc o with
    | none => .error (.object o)
    | some n =>
      if n - 1 = 0 then releaseAll turns (m.members o ++ os) (m.delete o)
      else releaseAll turns os { m with rc := Function.update m.rc o (some (n - 1)) }

/-- `if (object) object->release()`. -/
def release (m : Memory) (object : Option ℕ) : Except MemoryError Memory :=
  releaseAll (m.pointers.length + 1) object.toList m

/-- `object = ptr.object` and `object->addRef()` of `operator=`, which use both pointers again. -/
def rebind (m : Memory) (dst src : ℕ) : Except MemoryError Memory :=
  match m.find dst, m.find src with
  | none, _ => .error (.pointer dst)
  | _, none => .error (.pointer src)
  | some _, some s => (m.store dst s.object).addRef s.object

/-- `operator=`. What the pointer holds is not read between `release` and the assignment. -/
def assign (m : Memory) (dst src : ℕ) : Except MemoryError Memory :=
  match m.find dst, m.find src with
  | none, _ => .error (.pointer dst)
  | _, none => .error (.pointer src)
  | some d, some s =>
    if d.object ≠ s.object then (m.store dst none).release d.object >>= fun m => m.rebind dst src
    else .ok m

/-- What a program does with its pointers. -/
inductive Op where
  /-- `SmartPtr()`. -/
  | null (name : ℕ) (owner : Option ℕ)
  /-- `SmartPtr(new T)`. -/
  | new (name : ℕ) (owner : Option ℕ)
  /-- `SmartPtr(ptr)`, also with the plain pointer that was taken from another one. -/
  | copy (name : ℕ) (owner : Option ℕ) (src : ℕ)
  | assign (dst src : ℕ)
  /-- `~SmartPtr()` of a variable. -/
  | destroy (name : ℕ)
  deriving DecidableEq, Repr

def step (m : Memory) : Op → Except MemoryError Memory
  | .null name owner => .ok { m with pointers := ⟨name, owner, none⟩ :: m.pointers }
  | .new name owner =>
    { m with
      pointers := ⟨name, owner, some m.next⟩ :: m.pointers
      rc := Function.update m.rc m.next (some 0)
      next := m.next + 1 : Memory }.addRef (some m.next)
  | .copy name owner src =>
    match m.find src with
    | none => .error (.pointer src)
    | some p =>
      { m with pointers := ⟨name, owner, p.object⟩ :: m.pointers : Memory }.addRef p.object
  | .assign dst src => m.assign dst src
  | .destroy name =>
    match m.find name with
    | none => .error (.pointer name)
    | some p =>
      { m with pointers := m.pointers.filter fun p => p.name ≠ name : Memory }.release p.object

def run (m : Memory) (ops : List Op) : Except MemoryError Memory := ops.foldlM step m

/-- The number of pointers to an object. -/
def held (m : Memory) (o : ℕ) : ℕ := m.pointers.countP fun p => p.object = some o

/-- What the pointers and the counts have to do with each other while some objects are still to be
released. -/
structure Inv (m : Memory) (os : List ℕ) : Prop where
  count : ∀ o n, m.rc o = some n → n.toNat = m.held o + os.count o
  alive : ∀ o, (m.rc o).isSome ↔ 0 < m.held o + os.count o
  owner : ∀ p ∈ m.pointers, ∀ o, p.owner = some o → (m.rc o).isSome
  names : (m.pointers.map Pointer.name).Nodup
  made : ∀ o, (m.rc o).isSome ∨ o ∈ m.deleted ↔ o < m.next
  once : m.deleted.Nodup
  gone : ∀ o ∈ m.deleted, m.rc o = none
  small : m.pointers.length < 2 ^ 32

theorem inv_empty : Inv empty [] where
  count := nofun
  alive := by simp [empty, held]
  owner := nofun
  names := List.nodup_nil
  made := by simp [empty]
  once := List.nodup_nil
  gone := nofun
  small := by decide

/-- The objects that nothing outside of such objects points to. They go with the last reference from
outside. -/
inductive Orphan (m : Memory) : ℕ → Prop
  | mk {o : ℕ} (hinside : ∀ p ∈ m.pointers, p.object = some o → p.owner ≠ none)
    (h : ∀ p ∈ m.pointers, p.object = some o → ∀ o', p.owner = some o' → Orphan m o') : Orphan m o

/-- The pointer is in such an object. -/
def Orphaned (m : Memory) (p : Pointer) : Prop := ∃ o, p.owner = some o ∧ m.Orphan o

theorem not_orphaned_variable {m : Memory} {p : Pointer} (hp : p.owner = none) :
    ¬ m.Orphaned p := by
  rintro ⟨o, ho, -⟩
  rw [hp] at ho
  cases ho

section Release
variable {m : Memory} {o : ℕ} {os : List ℕ}

/-- The pointers in an object and the others. -/
theorem held_split (ps : List Pointer) (o o' : ℕ) :
    ps.countP (fun p => p.object = some o') =
      (ps.filter fun p => p.owner ≠ some o).countP (fun p => p.object = some o') +
        ((ps.filter fun p => p.owner = some o).filterMap Pointer.object).count o' := by
  induction ps with
  | nil => rfl
  | cons p ps ih =>
    by_cases howner : p.owner = some o
    · cases hobject : p.object with
      | none => simp [howner, hobject, ih]
      | some o'' =>
        by_cases hsame : o'' = o'
        · simp [howner, hobject, hsame, ih]
          omega
        · simp [howner, hobject, hsame, ih]
    · by_cases hobject : p.object = some o'
      · simp [howner, hobject, ih]
        omega
      · simp [howner, hobject, ih]

theorem Inv.toNat (h : m.Inv (o :: os)) {n : UInt32} (hn : m.rc o = some n) :
    n.toNat = m.held o + os.count o + 1 := by
  rw [h.count o n hn, List.count_cons_self]
  omega

/-- Behind the last reference there is none. -/
theorem Inv.last (h : m.Inv (o :: os)) {n : UInt32} (hn : m.rc o = some n) (hlast : n - 1 = 0) :
    m.held o + os.count o = 0 := by
  have htotal := h.toNat hn
  have hsub := congrArg UInt32.toNat hlast
  rw [UInt32.toNat_sub_of_le _ _ (UInt32.le_iff_toNat_le.mpr (by simp; omega))] at hsub
  simp at hsub
  omega

/-- The last reference goes, and with it the object. -/
theorem Inv.delete (h : m.Inv (o :: os)) {n : UInt32} (hn : m.rc o = some n) (hlast : n - 1 = 0) :
    (m.delete o).Inv (m.members o ++ os) ∧
      (m.delete o).pointers.length + (m.members o ++ os).length ≤
        m.pointers.length + os.length := by
  have hsplit (o' : ℕ) : m.held o' + os.count o' =
      (m.delete o).held o' + (m.members o ++ os).count o' := by
    rw [held, held_split m.pointers o o', List.count_append]
    rw [← Nat.add_assoc]
    rfl
  have hlen : (m.delete o).pointers.length + (m.members o).length ≤ m.pointers.length := by
    have hparts := List.length_eq_length_filter_add (l := m.pointers)
      (fun p => decide (p.owner = some o))
    have hmembers : (m.members o).length ≤
        (m.pointers.filter fun p => p.owner = some o).length := List.length_filterMap_le _ _
    simp only [Memory.delete, ne_eq, decide_not]
    omega
  have hlength : (m.delete o).pointers.length + (m.members o ++ os).length ≤
      m.pointers.length + os.length := by
    rw [List.length_append]
    omega
  have hzero : (m.delete o).held o + (m.members o ++ os).count o = 0 := by
    rw [← hsplit]
    exact h.last hn hlast
  have hrc {o' : ℕ} (hne : o' ≠ o) : (m.delete o).rc o' = m.rc o' := Function.update_of_ne hne _ _
  have hself : (m.delete o).rc o = none := Function.update_self _ _ _
  have hcount {o' : ℕ} (hne : o' ≠ o) : (o :: os).count o' = os.count o' :=
    List.count_cons_of_ne hne.symm
  refine ⟨⟨fun o' n' hn' => ?_, fun o' => ?_, fun p hp o' ho' => ?_, ?_, fun o' => ?_, ?_,
    fun o' ho' => ?_, ?_⟩, hlength⟩
  · have hne : o' ≠ o := by
      rintro rfl
      rw [hself] at hn'
      cases hn'
    rw [hrc hne] at hn'
    rw [h.count o' n' hn', hcount hne, hsplit]
  · by_cases hne : o' = o
    · subst hne
      rw [hself, hzero]
      simp
    · rw [hrc hne, h.alive, hcount hne, hsplit]
  · obtain ⟨hmem, howner⟩ := List.mem_filter.mp hp
    have hne : o' ≠ o := by
      rintro rfl
      simp [ho'] at howner
    rw [hrc hne]
    exact h.owner p hmem o' ho'
  · exact h.names.sublist (List.filter_sublist.map _)
  · by_cases hne : o' = o
    · subst hne
      have hmade := (h.made o').mp (.inl (by rw [hn]; rfl))
      simp [Memory.delete, hmade]
    · rw [hrc hne]
      simpa [Memory.delete, hne] using h.made o'
  · refine List.nodup_cons.mpr ⟨fun hmem => ?_, h.once⟩
    rw [h.gone o hmem] at hn
    cases hn
  · by_cases hne : o' = o
    · rw [hne, hself]
    · rw [hrc hne]
      exact h.gone o' (List.mem_of_ne_of_mem hne ho')
  · have hsmall := h.small
    omega

/-- Another reference is left. -/
theorem Inv.decrement (h : m.Inv (o :: os)) {n : UInt32} (hn : m.rc o = some n)
    (hmore : n - 1 ≠ 0) : Inv { m with rc := Function.update m.rc o (some (n - 1)) } os := by
  have htotal := h.toNat hn
  have hpred : (n - 1).toNat = m.held o + os.count o := by
    rw [UInt32.toNat_sub_of_le _ _ (UInt32.le_iff_toNat_le.mpr (by simp; omega))]
    simp
    omega
  have hpos : 0 < m.held o + os.count o := by
    rw [← hpred]
    exact Nat.pos_of_ne_zero fun hzero => hmore (UInt32.toNat_inj.mp hzero)
  have hcount {o' : ℕ} (hne : o' ≠ o) : (o :: os).count o' = os.count o' :=
    List.count_cons_of_ne hne.symm
  have hsome (o' : ℕ) : (Function.update m.rc o (some (n - 1)) o').isSome = (m.rc o').isSome := by
    by_cases hne : o' = o
    · rw [hne, Function.update_self, hn]
      rfl
    · rw [Function.update_of_ne hne]
  refine ⟨fun o' n' hn' => ?_, fun o' => ?_, fun p hp o' ho' => ?_, h.names, fun o' => ?_, h.once,
    fun o' ho' => ?_, h.small⟩
  · by_cases hne : o' = o
    · subst hne
      simp only [Function.update_self, Option.some.injEq] at hn'
      rw [← hn', hpred]
      rfl
    · simp only [Function.update_of_ne hne] at hn'
      rw [h.count o' n' hn', hcount hne]
      rfl
  · simp only [hsome]
    by_cases hne : o' = o
    · subst hne
      rw [hn]
      exact iff_of_true rfl hpos
    · rw [h.alive, hcount hne]
      rfl
  · simp only [hsome]
    exact h.owner p hp o' ho'
  · simp only [hsome]
    exact h.made o'
  · have hne : o' ≠ o := by
      rintro rfl
      rw [h.gone o' ho'] at hn
      cases hn
    simp only [Function.update_of_ne hne]
    exact h.gone o' ho'

/-- The pointers that are there behind the release of some objects: all but the orphaned ones, and
maybe some of these. -/
structure Kept (m m' : Memory) : Prop where
  pointers : m'.pointers.Sublist m.pointers
  orphaned : ∀ p ∈ m.pointers, p ∉ m'.pointers → m.Orphaned p

theorem Kept.refl (m : Memory) : Kept m m := ⟨.refl _, fun _ hp hp' => absurd hp hp'⟩

theorem Kept.mem {m' : Memory} (hkept : Kept m m') {p : Pointer} (hp : p ∈ m.pointers)
    (hout : ¬ m.Orphaned p) : p ∈ m'.pointers :=
  not_not.mp fun hnot => hout (hkept.orphaned p hp hnot)

/-- Once nothing is left that points to an object, all that has pointed to it is orphaned, and so is
what goes with it. -/
theorem Kept.delete {m₀ : Memory} (hkept : Kept m₀ m) (hnone : m.held o = 0) :
    Kept m₀ (m.delete o) := by
  have hgone : ∀ p ∈ m₀.pointers, p.object = some o → m₀.Orphaned p := by
    intro p hp hobject
    refine hkept.orphaned p hp fun hmem => ?_
    have hpos : 0 < m.held o := List.countP_pos_iff.mpr ⟨p, hmem, by simpa using hobject⟩
    omega
  have horphan : m₀.Orphan o := by
    refine .mk (fun p hp hobject hout => ?_) fun p hp hobject o' ho' => ?_
    · obtain ⟨o', ho', -⟩ := hgone p hp hobject
      rw [hout] at ho'
      cases ho'
    · obtain ⟨o'', ho'', horphan⟩ := hgone p hp hobject
      rw [ho'] at ho''
      cases ho''
      exact horphan
  refine ⟨List.filter_sublist.trans hkept.pointers, fun p hp hnot => ?_⟩
  by_cases hmem : p ∈ m.pointers
  · have howner : p.owner = some o := by
      by_contra hother
      exact hnot (List.mem_filter.mpr ⟨hmem, by simpa using hother⟩)
    exact ⟨o, howner, horphan⟩
  · exact hkept.orphaned p hp hmem

/-- The release of some objects ends, and takes no pointer with it but orphaned ones. -/
theorem releaseAll_inv {turns : ℕ} {m₀ : Memory} (h : m.Inv os) (hkept : Kept m₀ m)
    (hturns : m.pointers.length + os.length ≤ turns) :
    ∃ m', releaseAll turns os m = .ok m' ∧ m'.Inv [] ∧ Kept m₀ m' := by
  induction turns generalizing m os with
  | zero =>
    obtain rfl : os = [] := List.eq_nil_of_length_eq_zero (by omega)
    exact ⟨m, rfl, h, hkept⟩
  | succ turns ih =>
    cases os with
    | nil => exact ⟨m, rfl, h, hkept⟩
    | cons o os =>
      obtain ⟨n, hn⟩ := Option.isSome_iff_exists.mp ((h.alive o).mpr (by
        rw [List.count_cons_self]
        omega))
      rw [List.length_cons] at hturns
      by_cases hlast : n - 1 = 0
      · obtain ⟨hdelete, hlen⟩ := h.delete hn hlast
        have hheld : m.held o = 0 := Nat.eq_zero_of_add_eq_zero_right (h.last hn hlast)
        obtain ⟨m', hrun, hinv, hkept'⟩ := ih hdelete (hkept.delete hheld) (by omega)
        refine ⟨m', ?_, hinv, hkept'⟩
        simp only [releaseAll, hn, hlast, if_true, hrun]
      · obtain ⟨m', hrun, hinv, hkept'⟩ := ih (h.decrement hn hlast)
          ⟨hkept.pointers, hkept.orphaned⟩ (by
            show m.pointers.length + os.length ≤ turns
            omega)
        refine ⟨m', ?_, hinv, hkept'⟩
        simp only [releaseAll, hn, if_neg hlast, hrun]

/-- Behind the release the orphans are gone. -/
theorem Kept.orphan_gone {m₀ : Memory} (hkept : Kept m₀ m) (h : m.Inv []) (ho : m₀.Orphan o) :
    m.rc o = none := by
  induction ho with
  | @mk o hinside _ ih =>
    rw [← Option.not_isSome_iff_eq_none, h.alive]
    intro hpos
    rw [List.count_nil, Nat.add_zero] at hpos
    obtain ⟨p, hp, hobject⟩ := List.countP_pos_iff.mp hpos
    have hobject : p.object = some o := by simpa using hobject
    have hmem := hkept.pointers.subset hp
    obtain ⟨o', ho'⟩ := Option.ne_none_iff_exists'.mp (hinside p hmem hobject)
    have hexists := h.owner p hp o' ho'
    rw [ih p hmem hobject o' ho'] at hexists
    cases hexists

theorem Kept.not_mem {m₀ : Memory} (hkept : Kept m₀ m) (h : m.Inv []) {p : Pointer}
    (hp : m₀.Orphaned p) : p ∉ m.pointers := by
  obtain ⟨o, ho, horphan⟩ := hp
  intro hmem
  have hexists := h.owner p hmem o ho
  rw [hkept.orphan_gone h horphan] at hexists
  cases hexists

end Release

section Store
variable {m : Memory} {os : List ℕ} {name : ℕ} {p : Pointer}

theorem find_mem (h : m.find name = some p) : p ∈ m.pointers ∧ p.name = name :=
  ⟨List.mem_of_find?_eq_some h, by simpa using List.find?_some h⟩

/-- Pointers have different names. -/
theorem Inv.find (h : m.Inv os) (hp : p ∈ m.pointers) : m.find p.name = some p := by
  have hsome : (m.find p.name).isSome := by
    rw [Memory.find, List.find?_isSome]
    exact ⟨p, hp, by simp⟩
  obtain ⟨q, hq⟩ := Option.isSome_iff_exists.mp hsome
  obtain ⟨hmem, hname⟩ := find_mem hq
  rw [hq, List.inj_on_of_nodup_map h.names hmem hp hname]

theorem held_store_aux {ps : List Pointer} (hnames : (ps.map Pointer.name).Nodup) (hp : p ∈ ps)
    (object : Option ℕ) (o : ℕ) :
    (ps.map fun q => if q.name = p.name then { q with object } else q).countP
        (fun q => q.object = some o) + (if p.object = some o then 1 else 0) =
      ps.countP (fun q => q.object = some o) + if object = some o then 1 else 0 := by
  induction ps with
  | nil => cases hp
  | cons q ps ih =>
    obtain ⟨hnew, hnames⟩ := List.nodup_cons.mp hnames
    rw [List.map_cons, List.countP_cons, List.countP_cons]
    by_cases hq : q.name = p.name
    · have hsame : ps.map (fun q => if q.name = p.name then { q with object } else q) = ps := by
        conv_rhs => rw [← List.map_id ps]
        refine List.map_congr_left fun r hr => if_neg fun hr' => hnew ?_
        rw [hq, ← hr']
        exact List.mem_map_of_mem hr
      have hpq : p = q := by
        refine (List.mem_cons.mp hp).resolve_right fun hmem => hnew ?_
        rw [hq]
        exact List.mem_map_of_mem hmem
      subst hpq
      rw [hsame, if_pos rfl]
      simp only [decide_eq_true_eq]
      omega
    · have hmem : p ∈ ps := (List.mem_cons.mp hp).resolve_left fun heq => hq (by rw [heq])
      have hrest := ih hnames hmem
      rw [if_neg hq]
      omega

/-- What a pointer has pointed to loses a pointer, and what it points to now has one more. -/
theorem Inv.held_store (h : m.Inv os) (hp : p ∈ m.pointers) (object : Option ℕ) (o : ℕ) :
    (m.store p.name object).held o + (if p.object = some o then 1 else 0) =
      m.held o + if object = some o then 1 else 0 :=
  held_store_aux h.names hp object o

theorem held_remove_aux {ps : List Pointer} (hnames : (ps.map Pointer.name).Nodup) (hp : p ∈ ps)
    (o : ℕ) : (ps.filter fun q => q.name ≠ p.name).countP (fun q => q.object = some o) +
        (if p.object = some o then 1 else 0) = ps.countP fun q => q.object = some o := by
  induction ps with
  | nil => cases hp
  | cons q ps ih =>
    obtain ⟨hnew, hnames⟩ := List.nodup_cons.mp hnames
    by_cases hq : q.name = p.name
    · have hsame : ps.filter (fun r => r.name ≠ p.name) = ps := by
        apply List.filter_eq_self.mpr
        intro r hr
        rw [decide_eq_true_eq]
        intro hr'
        apply hnew
        rw [hq, ← hr']
        exact List.mem_map_of_mem hr
      have hpq : p = q := by
        refine (List.mem_cons.mp hp).resolve_right fun hmem => hnew ?_
        rw [hq]
        exact List.mem_map_of_mem hmem
      subst hpq
      rw [List.filter_cons_of_neg (by simp), hsame, List.countP_cons]
      simp only [decide_eq_true_eq]
    · have hmem : p ∈ ps := (List.mem_cons.mp hp).resolve_left fun heq => hq (by rw [heq])
      have hrest := ih hnames hmem
      rw [List.filter_cons_of_pos (by simpa using hq), List.countP_cons, List.countP_cons]
      omega

theorem mem_store_self (hp : p ∈ m.pointers) (object : Option ℕ) :
    { p with object } ∈ (m.store p.name object).pointers :=
  List.mem_map.mpr ⟨p, hp, if_pos rfl⟩

theorem mem_store_of_ne (hp : p ∈ m.pointers) (hne : p.name ≠ name) (object : Option ℕ) :
    p ∈ (m.store name object).pointers :=
  List.mem_map.mpr ⟨p, hp, if_neg hne⟩

theorem store_names (object : Option ℕ) :
    (m.store name object).pointers.map Pointer.name = m.pointers.map Pointer.name := by
  simp only [store, List.map_map]
  refine List.map_congr_left fun q _ => ?_
  simp only [Function.comp_apply]
  split_ifs <;> rfl

/-- A change of what a pointer points to leaves its owner and its name. -/
theorem store_mem {object : Option ℕ} {q : Pointer} (hq : q ∈ (m.store name object).pointers) :
    ∃ q' ∈ m.pointers, q'.owner = q.owner ∧ q'.name = q.name := by
  obtain ⟨q', hq', rfl⟩ := List.mem_map.mp hq
  refine ⟨q', hq', ?_⟩
  split_ifs <;> exact ⟨rfl, rfl⟩

/-- A pointer that was made or changed, and then the count of what it points to. -/
theorem addRef_inv {object : Option ℕ}
    (hcount : ∀ o n, m.rc o = some n →
      n.toNat + (if object = some o then 1 else 0) = m.held o)
    (halive : ∀ o, (m.rc o).isSome ↔ 0 < m.held o)
    (howner : ∀ p ∈ m.pointers, ∀ o, p.owner = some o → (m.rc o).isSome)
    (hnames : (m.pointers.map Pointer.name).Nodup) (hobject : ∀ o, object = some o → 0 < m.held o)
    (hmade : ∀ o, (m.rc o).isSome ∨ o ∈ m.deleted ↔ o < m.next) (honce : m.deleted.Nodup)
    (hgone : ∀ o ∈ m.deleted, m.rc o = none) (hsmall : m.pointers.length < 2 ^ 32) :
    ∃ m', m.addRef object = .ok m' ∧ m'.Inv [] := by
  cases object with
  | none =>
    refine ⟨m, rfl, fun o n hn => ?_, fun o => ?_, howner, hnames, hmade, honce, hgone, hsmall⟩
    · simpa using hcount o n hn
    · simpa using halive o
  | some o =>
    obtain ⟨n, hn⟩ := Option.isSome_iff_exists.mp ((halive o).mpr (hobject o rfl))
    have htotal := hcount o n hn
    rw [if_pos rfl] at htotal
    have hbound : m.held o ≤ m.pointers.length := List.countP_le_length
    have hsucc : (n + 1).toNat = n.toNat + 1 := by
      rw [UInt32.toNat_add]
      exact Nat.mod_eq_of_lt (by simp only [UInt32.reduceToNat]; omega)
    have hsome (o' : ℕ) :
        (Function.update m.rc o (some (n + 1)) o').isSome = (m.rc o').isSome := by
      by_cases hne : o' = o
      · rw [hne, Function.update_self, hn]
        rfl
      · rw [Function.update_of_ne hne]
    refine ⟨{ m with rc := Function.update m.rc o (some (n + 1)) }, by simp only [addRef, hn],
      fun o' n' hn' => ?_, fun o' => ?_, fun p hp o' ho' => ?_, hnames, fun o' => ?_, honce,
      fun o' ho' => ?_, hsmall⟩
    · by_cases hne : o' = o
      · subst hne
        simp only [Function.update_self, Option.some.injEq] at hn'
        rw [← hn', hsucc, htotal]
        rfl
      · simp only [Function.update_of_ne hne] at hn'
        have hother := hcount o' n' hn'
        rw [if_neg (by simpa using Ne.symm hne), Nat.add_zero] at hother
        exact hother
    · simp only [hsome, List.count_nil, Nat.add_zero]
      exact halive o'
    · simp only [hsome]
      exact howner p hp o' ho'
    · simp only [hsome]
      exact hmade o'
    · have hne : o' ≠ o := by
        rintro rfl
        rw [hgone o' ho'] at hn
        cases hn
      simp only [Function.update_of_ne hne]
      exact hgone o' ho'

end Store

section Steps
variable {m : Memory}

/-- What a program has to keep to: new pointers have a new name and are variables or in an object
that exists, only pointers that exist are used, only variables are destroyed, and an assignment that
changes a pointer is not to or from a pointer in an object that goes with it. -/
def Valid (m : Memory) : Op → Prop
  | .null name owner | .new name owner =>
    m.find name = none ∧ (∀ o, owner = some o → (m.rc o).isSome) ∧
      m.pointers.length + 1 < 2 ^ 32
  | .copy name owner src =>
    m.find name = none ∧ (∀ o, owner = some o → (m.rc o).isSome) ∧
      m.pointers.length + 1 < 2 ^ 32 ∧ (m.find src).isSome
  | .assign dst src => ∃ d s, m.find dst = some d ∧ m.find src = some s ∧
      (d.object ≠ s.object →
        ¬ (m.store dst none).Orphaned d ∧ ¬ (m.store dst none).Orphaned s)
  | .destroy name => ∃ p, m.find name = some p ∧ p.owner = none

/-- What a new pointer adds to the number of pointers to an object. -/
theorem held_cons (name : ℕ) (owner object : Option ℕ) (rc : ℕ → Option UInt32) (next o : ℕ) :
    held { m with pointers := ⟨name, owner, object⟩ :: m.pointers, rc, next } o =
      m.held o + if object = some o then 1 else 0 := by
  simp only [held, List.countP_cons, decide_eq_true_eq]

theorem not_mem_names {name : ℕ} (h : m.find name = none) :
    name ∉ m.pointers.map Pointer.name := by
  intro hmem
  obtain ⟨p, hp, rfl⟩ := List.mem_map.mp hmem
  simpa using List.find?_eq_none.mp h p hp

theorem Inv.held_eq (h : m.Inv []) {o : ℕ} {n : UInt32} (hn : m.rc o = some n) :
    n.toNat = m.held o := by
  simpa using h.count o n hn

theorem Inv.isSome_iff (h : m.Inv []) (o : ℕ) : (m.rc o).isSome ↔ 0 < m.held o := by
  simpa using h.alive o

/-- What a pointer points to exists. -/
theorem held_pos {p : Pointer} (hp : p ∈ m.pointers) {o : ℕ} (ho : p.object = some o) :
    0 < m.held o :=
  List.countP_pos_iff.mpr ⟨p, hp, by simpa using ho⟩

/-- A new pointer to what another one points to, or to nothing. -/
theorem Inv.copy (h : m.Inv []) {name : ℕ} {owner object : Option ℕ} (hname : m.find name = none)
    (howner : ∀ o, owner = some o → (m.rc o).isSome) (hsmall : m.pointers.length + 1 < 2 ^ 32)
    (hobject : ∀ o, object = some o → 0 < m.held o) :
    ∃ m', addRef { m with pointers := ⟨name, owner, object⟩ :: m.pointers } object = .ok m' ∧
      m'.Inv [] := by
  have hheld := held_cons (m := m) name owner object m.rc m.next
  apply addRef_inv
  · intro o n hn
    rw [hheld, h.held_eq hn]
  · intro o
    refine (h.isSome_iff o).trans ⟨fun hpos => ?_, fun hpos => ?_⟩
    · rw [hheld]
      omega
    · rw [hheld] at hpos
      split_ifs at hpos with hsame
      · exact hobject o hsame
      · exact hpos
  · intro p hp o ho
    obtain rfl | hp := List.mem_cons.mp hp
    · exact howner o ho
    · exact h.owner p hp o ho
  · exact List.nodup_cons.mpr ⟨not_mem_names hname, h.names⟩
  · intro o ho
    rw [hheld, if_pos ho]
    omega
  · exact h.made
  · exact h.once
  · exact h.gone
  · exact hsmall

/-- A new pointer to a new object. -/
theorem Inv.new (h : m.Inv []) {name : ℕ} {owner : Option ℕ} (hname : m.find name = none)
    (howner : ∀ o, owner = some o → (m.rc o).isSome) (hsmall : m.pointers.length + 1 < 2 ^ 32) :
    ∃ m', step m (.new name owner) = .ok m' ∧ m'.Inv [] := by
  have hheld := held_cons (m := m) name owner (some m.next)
    (Function.update m.rc m.next (some 0)) (m.next + 1)
  have hfresh : m.rc m.next = none := by
    rw [← Option.not_isSome_iff_eq_none]
    intro hsome
    exact Nat.lt_irrefl _ ((h.made m.next).mp (.inl hsome))
  have hzero : m.held m.next = 0 := by
    have hnot := (h.isSome_iff m.next).not
    rw [hfresh] at hnot
    simpa using hnot
  unfold step
  apply addRef_inv
  · intro o n hn
    rw [hheld]
    by_cases hne : o = m.next
    · subst hne
      simp only [Function.update_self, Option.some.injEq] at hn
      rw [← hn, hzero]
      rfl
    · simp only [Function.update_of_ne hne] at hn
      rw [h.held_eq hn]
  · intro o
    rw [hheld]
    by_cases hne : o = m.next
    · subst hne
      simp
    · simp only [Function.update_of_ne hne, Option.some.injEq, if_neg (Ne.symm hne)]
      exact h.isSome_iff o
  · intro p hp o ho
    by_cases hne : o = m.next
    · simp [hne]
    · simp only [Function.update_of_ne hne]
      obtain rfl | hp := List.mem_cons.mp hp
      · exact howner o ho
      · exact h.owner p hp o ho
  · exact List.nodup_cons.mpr ⟨not_mem_names hname, h.names⟩
  · intro o ho
    rw [hheld, if_pos ho]
    omega
  · intro o
    by_cases hne : o = m.next
    · subst hne
      simp
    · have hmade := h.made o
      simp only [Function.update_of_ne hne, hmade]
      omega
  · exact h.once
  · intro o ho
    have hne : o ≠ m.next := by
      rintro rfl
      exact Nat.lt_irrefl _ ((h.made m.next).mp (.inr ho))
    simp only [Function.update_of_ne hne]
    exact h.gone o ho
  · exact hsmall

/-- A pointer that is about to point to something else has given up what it has pointed to. -/
theorem Inv.give (h : m.Inv []) {d : Pointer} (hd : d ∈ m.pointers) :
    (m.store d.name none).Inv d.object.toList := by
  have hheld (o : ℕ) : (m.store d.name none).held o + d.object.toList.count o = m.held o := by
    have hstore := h.held_store hd none o
    rw [if_neg (by simp : ¬ none = some o), Nat.add_zero] at hstore
    rw [← hstore]
    cases hobject : d.object with
    | none => simp
    | some o' => simp [List.count_singleton]
  refine ⟨fun o n hn => ?_, fun o => ?_, fun p hp o ho => ?_, ?_, h.made, h.once, h.gone, ?_⟩
  · rw [hheld, h.held_eq hn]
  · rw [hheld]
    exact h.isSome_iff o
  · obtain ⟨q, hq, hsame, -⟩ := store_mem hp
    exact h.owner q hq o (hsame.trans ho)
  · rw [store_names]
    exact h.names
  · have hsame : (m.store d.name none).pointers.length = m.pointers.length := List.length_map _
    rw [hsame]
    exact h.small

/-- The release of it by `operator=`. -/
theorem Inv.release_give (h : m.Inv []) {d : Pointer} (hd : d ∈ m.pointers) :
    ∃ m', (m.store d.name none).release d.object = .ok m' ∧ m'.Inv [] ∧
      Kept (m.store d.name none) m' := by
  have hone : d.object.toList.length ≤ 1 := by cases d.object <;> simp
  exact releaseAll_inv (h.give hd) (.refl _) (Nat.add_le_add_left hone _)

/-- A pointer that is gone has given up what it has pointed to. -/
theorem Inv.remove (h : m.Inv []) {p : Pointer} (hp : p ∈ m.pointers) :
    Inv { m with pointers := m.pointers.filter fun q => q.name ≠ p.name } p.object.toList := by
  have hheld (o : ℕ) :
      held { m with pointers := m.pointers.filter fun q => q.name ≠ p.name } o +
        p.object.toList.count o = m.held o := by
    have hremove := held_remove_aux h.names hp o
    rw [held, held, ← hremove]
    cases hobject : p.object with
    | none => simp
    | some o' => simp [List.count_singleton]
  refine ⟨fun o n hn => ?_, fun o => ?_, fun q hq o ho => ?_, ?_, h.made, h.once, h.gone, ?_⟩
  · rw [hheld]
    exact h.held_eq hn
  · rw [hheld]
    exact h.isSome_iff o
  · exact h.owner q (List.mem_of_mem_filter hq) o ho
  · exact h.names.sublist (List.filter_sublist.map _)
  · exact Nat.lt_of_le_of_lt (List.length_filter_le _ _) h.small

theorem Inv.destroy (h : m.Inv []) {p : Pointer} {name : ℕ} (hp : m.find name = some p) :
    ∃ m', step m (.destroy name) = .ok m' ∧ m'.Inv [] := by
  obtain ⟨hmem, rfl⟩ := find_mem hp
  have hone : p.object.toList.length ≤ 1 := by cases p.object <;> simp
  obtain ⟨m', hrun, hinv, -⟩ := releaseAll_inv (h.remove hmem) (.refl _)
    (Nat.add_le_add_left hone _)
  refine ⟨m', ?_, hinv⟩
  simp only [step, hp, release]
  exact hrun

theorem Inv.assign (h : m.Inv []) {d s : Pointer} {dst src : ℕ} (hd : m.find dst = some d)
    (hs : m.find src = some s) (hout : d.object ≠ s.object →
      ¬ (m.store dst none).Orphaned d ∧ ¬ (m.store dst none).Orphaned s) :
    ∃ m', m.assign dst src = .ok m' ∧ m'.Inv [] := by
  obtain ⟨hdmem, rfl⟩ := find_mem hd
  obtain ⟨hsmem, rfl⟩ := find_mem hs
  by_cases hsame : d.object = s.object
  · exact ⟨m, by simp [Memory.assign, hd, hs, hsame], h⟩
  · have hne : s.name ≠ d.name := by
      intro hname
      rw [hname, hd] at hs
      cases hs
      exact hsame rfl
    obtain ⟨houtd, houts⟩ := hout hsame
    obtain ⟨m₂, hrun, hinv, hkept⟩ := h.release_give hdmem
    have hd₂ : { d with object := none } ∈ m₂.pointers :=
      hkept.mem (mem_store_self hdmem none) houtd
    have hs₂ : s ∈ m₂.pointers := hkept.mem (mem_store_of_ne hsmem hne none) houts
    have hfindd : m₂.find d.name = some { d with object := none } := hinv.find hd₂
    have hfinds : m₂.find s.name = some s := hinv.find hs₂
    have hheld (o : ℕ) : (m₂.store d.name s.object).held o =
        m₂.held o + if s.object = some o then 1 else 0 := by
      have hstore := hinv.held_store hd₂ s.object o
      rwa [if_neg (by simp : ¬ none = some o), Nat.add_zero] at hstore
    have hrest : ∃ m', (m₂.store d.name s.object).addRef s.object = .ok m' ∧ m'.Inv [] := by
      apply addRef_inv
      · intro o n hn
        rw [hheld, hinv.held_eq hn]
      · intro o
        refine (hinv.isSome_iff o).trans ⟨fun hpos => ?_, fun hpos => ?_⟩
        · rw [hheld]
          omega
        · rw [hheld] at hpos
          split_ifs at hpos with hobject
          · exact held_pos hs₂ hobject
          · exact hpos
      · intro p hp o ho
        obtain ⟨q, hq, howner, -⟩ := store_mem hp
        exact hinv.owner q hq o (howner.trans ho)
      · rw [store_names]
        exact hinv.names
      · intro o ho
        rw [hheld, if_pos ho]
        omega
      · exact hinv.made
      · exact hinv.once
      · exact hinv.gone
      · have hlen : (m₂.store d.name s.object).pointers.length = m₂.pointers.length :=
          List.length_map _
        rw [hlen]
        exact hinv.small
    obtain ⟨m', hadd, hinv'⟩ := hrest
    refine ⟨m', ?_, hinv'⟩
    have hrebind : m₂.rebind d.name s.name = .ok m' := by
      simp only [rebind, hfindd, hfinds, hadd]
    simp only [Memory.assign, hd, hs, ne_eq, hsame, not_false_eq_true, if_true, hrun]
    exact hrebind

/-- A pointer in an object that has gone is not found. -/
theorem Inv.find_orphaned (h : m.Inv []) {m₂ : Memory} (hinv : m₂.Inv []) {name : ℕ}
    (hkept : Kept (m.store name none) m₂) {p : Pointer} (hp : p ∈ m.pointers)
    (horphaned : (m.store name none).Orphaned p) : m₂.find p.name = none := by
  rw [Memory.find, List.find?_eq_none]
  intro q hq hname
  obtain ⟨r, hr, howner, hsame⟩ := store_mem (hkept.pointers.subset hq)
  have hrp : r = p := List.inj_on_of_nodup_map h.names hr hp (hsame.trans (by simpa using hname))
  subst hrp
  obtain ⟨o, ho, horphan⟩ := horphaned
  exact hkept.not_mem hinv ⟨o, howner.symm.trans ho, horphan⟩ hq

/-- Where one of the sides goes with what the left side has pointed to, `operator=` uses a pointer
that is gone. -/
theorem Inv.assign_orphaned (h : m.Inv []) {d s : Pointer} {dst src : ℕ}
    (hd : m.find dst = some d) (hs : m.find src = some s) (hne : d.object ≠ s.object) :
    ((m.store dst none).Orphaned d → m.assign dst src = .error (.pointer dst)) ∧
      (¬ (m.store dst none).Orphaned d → (m.store dst none).Orphaned s →
        m.assign dst src = .error (.pointer src)) := by
  obtain ⟨hdmem, rfl⟩ := find_mem hd
  obtain ⟨hsmem, rfl⟩ := find_mem hs
  obtain ⟨m₂, hrun, hinv, hkept⟩ := h.release_give hdmem
  have hassign : m.assign d.name s.name = m₂.rebind d.name s.name := by
    simp only [Memory.assign, hd, hs, ne_eq, hne, not_false_eq_true, if_true, hrun]
    rfl
  rw [hassign, rebind]
  refine ⟨fun hin => ?_, fun hout hin => ?_⟩
  · rw [h.find_orphaned hinv hkept hdmem hin]
  · have hfindd : m₂.find d.name = some { d with object := none } :=
      hinv.find (hkept.mem (mem_store_self hdmem none) hout)
    rw [hfindd, h.find_orphaned hinv hkept hsmem hin]

/-- The rule for assignments leaves out those only that use a pointer that is gone. -/
theorem Inv.assign_iff (h : m.Inv []) {d s : Pointer} {dst src : ℕ} (hd : m.find dst = some d)
    (hs : m.find src = some s) : m.Valid (.assign dst src) ↔ (m.assign dst src).isOk = true := by
  constructor
  · rintro ⟨d', s', hd', hs', hout⟩
    obtain ⟨m', hassign, -⟩ := h.assign hd' hs' hout
    rw [hassign]
    rfl
  · intro hok
    refine ⟨d, s, hd, hs, fun hne => ?_⟩
    obtain ⟨hleft, hright⟩ := h.assign_orphaned hd hs hne
    have hout : ¬ (m.store dst none).Orphaned d := fun hin => by
      rw [hleft hin] at hok
      cases hok
    refine ⟨hout, fun hin => ?_⟩
    rw [hright hout hin] at hok
    cases hok

theorem step_inv (h : m.Inv []) {op : Op} (hop : m.Valid op) :
    ∃ m', step m op = .ok m' ∧ m'.Inv [] := by
  cases op with
  | null name owner =>
    obtain ⟨hname, howner, hsmall⟩ := hop
    exact @Inv.copy m h name owner none hname howner hsmall fun o ho => by cases ho
  | new name owner =>
    obtain ⟨hname, howner, hsmall⟩ := hop
    exact h.new hname howner hsmall
  | copy name owner src =>
    obtain ⟨hname, howner, hsmall, hsrc⟩ := hop
    obtain ⟨p, hp⟩ := Option.isSome_iff_exists.mp hsrc
    simp only [step, hp]
    exact h.copy hname howner hsmall fun o ho => held_pos (find_mem hp).1 ho
  | assign dst src =>
    obtain ⟨d, s, hd, hs, hout⟩ := hop
    exact h.assign hd hs hout
  | destroy name =>
    obtain ⟨p, hp, -⟩ := hop
    exact h.destroy hp

/-- A program that keeps to the rules in every state that it comes to. -/
def ValidRun (m : Memory) : List Op → Prop
  | [] => True
  | op :: ops => m.Valid op ∧ ∀ m', step m op = .ok m' → m'.ValidRun ops

/-- The counts are the numbers of pointers, and an object exists as long as there is one. Once there
is none it was deleted, and no object is deleted twice. -/
structure Sound (m : Memory) : Prop where
  count : ∀ o n, m.rc o = some n → n.toNat = m.held o
  exist : ∀ o, (m.rc o).isSome ↔ 0 < m.held o
  deleted : ∀ o, o ∈ m.deleted ↔ o < m.next ∧ m.held o = 0
  once : m.deleted.Nodup

theorem Inv.sound (h : m.Inv []) : m.Sound where
  count _ _ hn := h.held_eq hn
  exist := h.isSome_iff
  once := h.once
  deleted o := by
    have hmade := h.made o
    have hexist := h.isSome_iff o
    have hgone := h.gone o
    constructor
    · intro ho
      have hnone := hgone ho
      rw [hnone] at hexist
      refine ⟨hmade.mp (.inr ho), ?_⟩
      simpa using hexist
    · rintro ⟨hlt, hzero⟩
      refine (hmade.mpr hlt).resolve_left fun hsome => ?_
      have hpos := hexist.mp hsome
      omega

theorem run_inv (h : m.Inv []) {ops : List Op} (hops : m.ValidRun ops) :
    ∃ m', run m ops = .ok m' ∧ m'.Inv [] := by
  induction ops generalizing m with
  | nil => exact ⟨m, rfl, h⟩
  | cons op ops ih =>
    obtain ⟨m₁, hstep, h₁⟩ := step_inv h hops.1
    obtain ⟨m', hrun, hinv⟩ := ih h₁ (hops.2 m₁ hstep)
    refine ⟨m', ?_, hinv⟩
    rw [run, List.foldlM_cons, hstep]
    exact hrun

end Steps

/-- No program that keeps to the rules uses an object or a pointer that is gone: every object is
deleted once, when the last pointer to it goes. -/
theorem run_sound (ops : List Op) (hops : empty.ValidRun ops) :
    ∃ m, run empty ops = .ok m ∧ m.Sound := by
  obtain ⟨m, hrun, hinv⟩ := run_inv inv_empty hops
  exact ⟨m, hrun, hinv.sound⟩

theorem validRun_cons {m m₁ : Memory} {op : Op} {ops : List Op} (hop : m.Valid op)
    (hstep : step m op = .ok m₁) (hops : m₁.ValidRun ops) : m.ValidRun (op :: ops) := by
  refine ⟨hop, fun m' h => ?_⟩
  rw [hstep] at h
  cases h
  exact hops

/-- A pointer in an object that a variable points to. -/
theorem not_orphaned {m : Memory} {p q : Pointer} (hq : q ∈ m.pointers) (hvariable : q.owner = none)
    (hobject : q.object = p.owner) : ¬ m.Orphaned p := by
  rintro ⟨o, ho, horphan⟩
  cases horphan with
  | mk hinside _ => exact hinside q hq (hobject.trans ho) hvariable

/-- An object in an object in a third one, which lets go of the second one for the first one, and
then of this one. -/
theorem run_sound_chain : ∃ m, run empty [.new 0 none, .new 1 (some 0), .new 2 (some 1),
    .copy 3 none 2, .assign 1 3, .null 4 none, .assign 1 4, .destroy 3, .destroy 0] = .ok m ∧
      m.Sound := by
  apply run_sound
  have hnone {m : Memory} : ∀ o, none = some o → (m.rc o).isSome := fun o ho => by cases ho
  refine validRun_cons ⟨rfl, hnone, by decide⟩ rfl ?_
  refine validRun_cons ⟨rfl, fun o ho => ?_, by decide⟩ rfl ?_
  · cases ho
    rfl
  refine validRun_cons ⟨rfl, fun o ho => ?_, by decide⟩ rfl ?_
  · cases ho
    rfl
  refine validRun_cons ⟨rfl, hnone, by decide, rfl⟩ rfl ?_
  refine validRun_cons ⟨_, _, rfl, rfl, fun _ => ⟨?_, ?_⟩⟩ rfl ?_
  · exact @not_orphaned _ _ ⟨0, none, some 0⟩ (by decide) rfl rfl
  · exact fun h => not_orphaned_variable rfl h
  refine validRun_cons ⟨rfl, hnone, by decide⟩ rfl ?_
  refine validRun_cons ⟨_, _, rfl, rfl, fun _ => ⟨?_, ?_⟩⟩ rfl ?_
  · exact @not_orphaned _ _ ⟨0, none, some 0⟩ (by decide) rfl rfl
  · exact fun h => not_orphaned_variable rfl h
  refine validRun_cons ⟨_, rfl, rfl⟩ rfl ?_
  exact validRun_cons ⟨_, rfl, rfl⟩ rfl trivial

/-- Where the left side of an assignment is the last pointer to an object and the right side is a
pointer in this object, `operator=` uses a pointer that is gone. -/
theorem assign_member {m : Memory} (h : m.Inv []) {d s : Pointer} {dst src o : ℕ}
    (hd : m.find dst = some d) (hs : m.find src = some s) (hvariable : d.owner = none)
    (hobject : d.object = some o) (hlast : m.held o = 1) (howner : s.owner = some o)
    (hother : s.object ≠ some o) : m.assign dst src = .error (.pointer src) := by
  obtain ⟨hdmem, rfl⟩ := find_mem hd
  have hnone : (m.store d.name none).held o = 0 := by
    have hstore := h.held_store hdmem none o
    rw [if_pos hobject, hlast] at hstore
    simpa using hstore
  have horphan : (m.store d.name none).Orphan o := by
    have hno : ∀ p ∈ (m.store d.name none).pointers, p.object ≠ some o := by
      simpa [held] using hnone
    exact .mk (fun p hp ho => absurd ho (hno p hp)) fun p hp ho => absurd ho (hno p hp)
  have hne : d.object ≠ s.object := by
    rw [hobject]
    exact hother.symm
  exact (h.assign_orphaned hd hs hne).2 (not_orphaned_variable hvariable) ⟨o, howner, horphan⟩

theorem assign_member_next : ∃ m, run empty [.new 0 none, .new 1 (some 0)] = .ok m ∧
    m.assign 0 1 = .error (.pointer 1) := by
  have hvalid : empty.ValidRun [.new 0 none, .new 1 (some 0)] := by
    have hnone {m : Memory} : ∀ o, none = some o → (m.rc o).isSome := fun o ho => by cases ho
    refine validRun_cons ⟨rfl, hnone, by decide⟩ rfl ?_
    refine validRun_cons ⟨rfl, fun o ho => ?_, by decide⟩ rfl trivial
    cases ho
    rfl
  obtain ⟨m, hrun, hinv⟩ := run_inv inv_empty hvalid
  refine ⟨m, hrun, ?_⟩
  cases hrun
  exact assign_member hinv rfl rfl rfl rfl rfl rfl (by decide)

end Memory
end Zim.SmartPtr
