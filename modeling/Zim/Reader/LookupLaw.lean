import Zim.Lib.Fallible
import Zim.Reader.Lookup

/-! What a lookup finds in an archive whose entries are in order. -/
namespace Zim
open Cxx Stateful Bisect
namespace File
open FileImpl

/-- `i` is the first position in the namespace with a key greater than `s`, or its end. -/
def FirstGreater (order : List Dirent) (key : Dirent → Bytes) (ns : UInt8) (s : Bytes) (i : ℕ) :
    Prop :=
  (∃ d, order[i]? = some d ∧ d.getNamespace = ns ∧ s < key d ∧
    ∀ j < i, ∀ e, order[j]? = some e → e.getNamespace = ns → key e ≤ s) ∨
  (∀ e ∈ order, e.getNamespace = ns → key e ≤ s) ∧ i = namespaceEnd order ns

/-- The law of a lookup for the key `s` of a namespace, with the result `r`. -/
structure Correct (order : List Dirent) (key : Dirent → Bytes) (ns : UInt8) (s : Bytes)
    (r : Bool × UInt32) : Prop where
  found : r.1 = true → ∃ d, order[r.2.toNat]? = some d ∧ d.getNamespace = ns ∧ key d = s
  absent : r.1 = false → ∀ d ∈ order, ¬ (d.getNamespace = ns ∧ key d = s)
  position : r.1 = false → (∃ d ∈ order, d.getNamespace = ns) →
    FirstGreater order key ns s r.2.toNat

/-- The namespace is before the one of the first entry, which has the key. -/
def BelowFirst (order : List Dirent) (key : Dirent → Bytes) (ns : UInt8) (s : Bytes) : Prop :=
  ∃ d, order[0]? = some d ∧ charValue ns < charValue d.getNamespace ∧ key d = s

section Order
variable {order : List Dirent} {key : Dirent → Bytes} {ns : UInt8} {s : Bytes} {l u : UInt32}
  {i j : ℕ} {d e : Dirent}

theorem key_le (hsorted : SortedBy key order) (hd : order[i]? = some d) (he : order[j]? = some e)
    (hij : i ≤ j) (hns : d.getNamespace = e.getNamespace) : key d ≤ key e := by
  rcases Nat.eq_or_lt_of_le hij with rfl | hlt
  · rw [hd] at he
    cases he
    exact le_rfl
  · obtain ⟨hi, rfl⟩ := List.getElem?_eq_some_iff.mp hd
    obtain ⟨hj, rfl⟩ := List.getElem?_eq_some_iff.mp he
    have hle := List.pairwise_iff_getElem.mp hsorted i j hi hj hlt
    rwa [hns, charStringKey_le] at hle

/-- The entries of a namespace are the ones from its begin up to its end. -/
theorem namespace_iff (hsorted : SortedBy key order) (hd : order[i]? = some d) :
    d.getNamespace = ns ↔ namespaceBegin order ns ≤ i ∧ i < namespaceEnd order ns := by
  rw [lt_namespaceEnd _ hsorted hd, ← Nat.not_lt, lt_namespaceBegin _ hsorted hd, not_lt,
    ← charValue_injective.eq_iff, and_comm]
  exact le_antisymm_iff

theorem compare_eq (hns : d.getNamespace = ns) : compare ns s key d = stringCompare s (key d) := by
  rw [compare, hns, if_neg (lt_irrefl _), if_neg (lt_irrefl _)]

section Within
variable (hsorted : SortedBy key order) (hl : l.toNat = namespaceBegin order ns)
  (hu : u.toNat = namespaceEnd order ns)
include hsorted hl hu

/-- Between the bounds the namespace is the one searched for. -/
theorem getD_within {p : UInt32} (hlp : l ≤ p) (hpu : p < u) :
    order[p.toNat]? = some (order.getD p.toNat .new) ∧
      (order.getD p.toNat .new).getNamespace = ns := by
  rw [UInt32.le_iff_toNat_le] at hlp
  rw [UInt32.lt_iff_toNat_lt] at hpu
  have hlen : namespaceEnd order ns ≤ order.length := List.countP_le_length
  have hp : p.toNat < order.length := by omega
  have hd : order[p.toNat]? = some (order.getD p.toNat .new) := by
    rw [List.getElem?_eq_getElem hp, List.getD_eq_getElem _ _ hp]
  exact ⟨hd, (namespace_iff hsorted hd).mpr (by omega)⟩

theorem correct_hit {p : UInt32} (hlp : l ≤ p) (hpu : p < u)
    (hkey : s = key (order.getD p.toNat .new)) : Correct order key ns s (true, p) where
  found _ := by
    obtain ⟨hd, hns⟩ := getD_within hsorted hl hu hlp hpu
    exact ⟨_, hd, hns, hkey.symm⟩
  absent := nofun
  position := nofun

/-- The position `p` cuts the namespace into the keys before `s` and the ones behind it. -/
theorem correct_miss {p : UInt32} (hlp : l ≤ p) (hpu : p ≤ u)
    (hbefore : ∀ q, l ≤ q → q < p → key (order.getD q.toNat .new) < s)
    (hbehind : p < u → s < key (order.getD p.toNat .new)) :
    Correct order key ns s (false, p) := by
  have hlen : namespaceEnd order ns ≤ order.length := List.countP_le_length
  have hlp' := UInt32.le_iff_toNat_le.mp hlp
  have hpu' := UInt32.le_iff_toNat_le.mp hpu
  have hsmall {j : ℕ} {e : Dirent} (he : order[j]? = some e) (hns : e.getNamespace = ns)
      (hj : j < p.toNat) : key e < s := by
    have hjl := ((namespace_iff hsorted he).mp hns).1
    have hjn : (UInt32.ofNat j).toNat = j :=
      UInt32.toNat_ofNat_of_lt' (hj.trans (UInt32.toNat_lt p))
    have hlt := hbefore (UInt32.ofNat j) (by rw [UInt32.le_iff_toNat_le, hjn]; omega)
      (by rw [UInt32.lt_iff_toNat_lt, hjn]; exact hj)
    rwa [hjn, List.getD_eq_getElem?_getD, he, Option.getD_some] at hlt
  have hgreat {j : ℕ} {e : Dirent} (he : order[j]? = some e) (hns : e.getNamespace = ns)
      (hj : p.toNat ≤ j) : s < key e := by
    have hju := ((namespace_iff hsorted he).mp hns).2
    have hlt : p < u := UInt32.lt_iff_toNat_lt.mpr (by omega)
    obtain ⟨hd, hdns⟩ := getD_within hsorted hl hu hlp hlt
    exact (hbehind hlt).trans_le (key_le hsorted hd he hj (hdns.trans hns.symm))
  refine ⟨nofun, fun _ e he => ?_, fun _ _ => ?_⟩
  · rintro ⟨hns, rfl⟩
    obtain ⟨j, hj⟩ := List.getElem?_of_mem he
    rcases Nat.lt_or_ge j p.toNat with hlt | hge
    · exact lt_irrefl _ (hsmall hj hns hlt)
    · exact lt_irrefl _ (hgreat hj hns hge)
  · by_cases hlt : p < u
    · obtain ⟨hd, hdns⟩ := getD_within hsorted hl hu hlp hlt
      exact .inl ⟨_, hd, hdns, hbehind hlt, fun j hj e he hns => (hsmall he hns hj).le⟩
    · have hpend : p.toNat = namespaceEnd order ns := by
        rw [UInt32.lt_iff_toNat_lt] at hlt
        omega
      refine .inr ⟨fun e he hns => ?_, hpend⟩
      obtain ⟨j, hj⟩ := List.getElem?_of_mem he
      have hju := ((namespace_iff hsorted hj).mp hns).2
      exact (hsmall hj hns (by omega)).le

/-- A namespace that does not end at the first entry is searched between its exact bounds. -/
theorem found_correct : Correct order key ns s (found order key l u ns s) := by
  unfold found
  split_ifs with heq
  · have hnone : ∀ d ∈ order, d.getNamespace ≠ ns := by
      intro d hd hns
      obtain ⟨i, hi⟩ := List.getElem?_of_mem hd
      have hin := (namespace_iff hsorted hi).mp hns
      rw [heq] at hl
      omega
    refine ⟨nofun, fun _ d hd h => hnone d hd h.1, ?_⟩
    rintro - ⟨d, hd, hns⟩
    exact absurd hns (hnone d hd)
  · have hlt : l < u := by
      have hle := @namespaceBegin_le_end order ns
      rw [← UInt32.toNat_inj] at heq
      rw [UInt32.lt_iff_toNat_lt]
      omega
    have hends := bisect_ends (fun p => compare ns s key (order.getD p.toNat .new)) hlt
    generalize bisect (m := Id) (fun p => compare ns s key (order.getD p.toNat .new)) l u = r
      at hends ⊢
    obtain ⟨hit, l', u'⟩ := r
    obtain ⟨hlower, hupper, hlt', hfromLower, hfromUpper, hhit, hmiss⟩ := hends
    simp only at hlower hupper hlt' hfromLower hfromUpper hhit hmiss ⊢
    have hside {p : UInt32} (hlp : l ≤ p) (hpu : p < u) :
        compare ns s key (order.getD p.toNat .new) =
          stringCompare s (key (order.getD p.toNat .new)) :=
      compare_eq (getD_within hsorted hl hu hlp hpu).2
    cases hit with
    | some p =>
      obtain ⟨heq, hlp, hpu⟩ := hhit p rfl
      rw [hside (UInt32.le_of_lt hlp) hpu, stringCompare_eq_iff] at heq
      exact correct_hit hsorted hl hu (UInt32.le_of_lt hlp) hpu heq
    | none =>
      have hnext := hmiss rfl
      have hl' : l' < u := UInt32.lt_of_lt_of_le hlt' hupper
      simp only
      cases hcmp : stringCompare s (key (order.getD l'.toNat .new)) with
      | eq => exact correct_hit hsorted hl hu hlower hl' (stringCompare_eq_iff.mp hcmp)
      | lt =>
        -- the lower bound has not been moved
        have hfirst : l' = l := by
          rcases hfromLower with heq | hgt
          · exact heq
          · rw [hside hlower hl', hcmp] at hgt
            cases hgt
        refine correct_miss hsorted hl hu hlower (UInt32.le_of_lt hl') (fun q hlq hq => ?_)
          fun _ => stringCompare_lt_iff.mp hcmp
        rw [hfirst] at hq
        exact absurd hq (UInt32.not_lt.mpr hlq)
      | gt =>
        rw [stringCompare_gt_iff] at hcmp
        refine correct_miss hsorted hl hu (UInt32.le_of_lt (UInt32.lt_of_le_of_lt hlower hlt'))
          hupper (fun q hlq hq => ?_) fun hu' => ?_
        · obtain ⟨hd, hns⟩ := getD_within hsorted hl hu hlq (UInt32.lt_of_lt_of_le hq hupper)
          obtain ⟨hd', hns'⟩ := getD_within hsorted hl hu hlower hl'
          rw [UInt32.lt_iff_toNat_lt] at hq
          exact (key_le hsorted hd hd' (by omega) (hns.trans hns'.symm)).trans_lt hcmp
        · have hlt'' := hfromUpper.resolve_left (UInt32.ne_of_lt hu')
          rw [hside (UInt32.le_of_lt (UInt32.lt_of_le_of_lt hlower hlt')) hu'] at hlt''
          exact stringCompare_lt_iff.mp hlt''

end Within

/-- For a namespace before all others the search looks at the first entry. -/
theorem found_below (hd : order[0]? = some d) (hl : l.toNat = 0) (hu : u.toNat = 1) :
    found order key l u ns s = match stringCompare s (key d) with
      | .eq => (true, l)
      | .lt => (false, l)
      | .gt => (false, u) := by
  have hlt : l < u := UInt32.lt_iff_toNat_lt.mpr (by omega)
  have hends := bisect_ends (fun p => compare ns s key (order.getD p.toNat .new)) hlt
  have hfirst : order.getD 0 .new = d := by rw [List.getD_eq_getElem?_getD, hd, Option.getD_some]
  unfold found
  rw [if_neg (UInt32.ne_of_lt hlt)]
  generalize bisect (m := Id) (fun p => compare ns s key (order.getD p.toNat .new)) l u = r
    at hends ⊢
  obtain ⟨hit, l', u'⟩ := r
  have hlower := UInt32.le_iff_toNat_le.mp hends.lower
  have hupper := UInt32.le_iff_toNat_le.mp hends.upper
  have hlt' := UInt32.lt_iff_toNat_lt.mp hends.lt
  simp only at hlower hupper hlt'
  obtain rfl : l' = l := UInt32.toNat_inj.mp (by omega)
  obtain rfl : u' = u := UInt32.toNat_inj.mp (by omega)
  cases hit with
  | some p =>
    obtain ⟨-, hlp, hpu⟩ := hends.hit p rfl
    rw [UInt32.lt_iff_toNat_lt] at hlp hpu
    omega
  | none =>
    cases hcmp : stringCompare s (key d) <;> simp only [hl, hfirst, hcmp]

/-- A lookup obeys the law unless it takes the first entry for one of a namespace before it. -/
theorem found_correct_iff (hsorted : SortedBy key order) (hne : order ≠ [])
    (hl : l.toNat = namespaceBegin order ns) (hu : u.toNat = max 1 (namespaceEnd order ns)) :
    Correct order key ns s (found order key l u ns s) ↔ ¬ BelowFirst order key ns s := by
  have hd := getElem?_first hne
  generalize order.getD 0 .new = d at hd
  have hend := lt_namespaceEnd ns hsorted hd
  by_cases hbelow : charValue ns < charValue d.getNamespace
  · have hzero : namespaceEnd order ns = 0 :=
      Nat.eq_zero_of_not_pos fun hpos => not_le.mpr hbelow (hend.mp hpos)
    have hbegin := @namespaceBegin_le_end order ns
    have hother : ∀ e ∈ order, e.getNamespace ≠ ns := by
      intro e he hns
      obtain ⟨i, hi⟩ := List.getElem?_of_mem he
      have hin := (namespace_iff hsorted hi).mp hns
      omega
    rw [found_below hd (by omega) (by omega)]
    constructor
    · rintro hcorrect ⟨e, he, -, rfl⟩
      rw [hd] at he
      cases he
      rw [stringCompare_eq_iff.mpr rfl] at hcorrect
      obtain ⟨e, he, hns, -⟩ := hcorrect.found rfl
      exact hother e (List.mem_of_getElem? he) hns
    · intro hnot
      have hmiss (p : UInt32) : Correct order key ns s (false, p) :=
        ⟨nofun, fun _ e he h => hother e he h.1, fun _ ⟨e, he, hns⟩ => absurd hns (hother e he)⟩
      cases hcmp : stringCompare s (key d) with
      | eq => exact absurd ⟨d, hd, hbelow, (stringCompare_eq_iff.mp hcmp).symm⟩ hnot
      | lt => exact hmiss l
      | gt => exact hmiss u
  · have hpos : 0 < namespaceEnd order ns := hend.mpr (not_lt.mp hbelow)
    have hnot : ¬ BelowFirst order key ns s := by
      rintro ⟨e, he, hlt, -⟩
      rw [hd] at he
      cases he
      exact hbelow hlt
    have hcorrect := found_correct (s := s) hsorted hl (hu.trans (max_eq_right hpos))
    exact iff_of_true hcorrect hnot

end Order

section Runs
variable {build : Build} {archive : Bytes} {direntCache clusterCache : ℕ} {f₀ : FileImpl}
  {es : List Dirent} {ts : List UInt32}

/-- The law for the outcome of a lookup, which returns if there are entries at all. -/
def Lawful (order : List Dirent) (key : Dirent → Bytes) (ns : UInt8) (s : Bytes)
    (r : Except ZimError (Bool × UInt32)) : Prop :=
  (order ≠ [] → ∃ v, r = .ok v) ∧ ∀ v, r = .ok v → Correct order key ns s v

inductive Lookup where
  | url (ns : UInt8) (s : Bytes)
  | title (ns : UInt8) (s : Bytes)

def Lookup.run (build : Build) : Lookup → M (Bool × UInt32)
  | url ns s => findx build ns s
  | title ns s => findxByTitle build ns s

/-- The object after a sequence of lookups. -/
def Lookup.after (build : Build) (lookups : List Lookup) (f : FileImpl) : FileImpl :=
  lookups.foldl (fun f lookup => state (lookup.run build f)) f

theorem byTitle_perm_of (hlen : es.length ≤ 2 ^ 32)
    (hperm : ts.Perm ((List.range es.length).map UInt32.ofNat)) : (byTitle es ts).Perm es := by
  have hrange : ((List.range es.length).map UInt32.ofNat).map (fun i => es.getD i.toNat .new) =
      es := by
    refine List.ext_getElem (by simp) fun i hi hi' => ?_
    have hindex : (UInt32.ofNat i).toNat = i := UInt32.toNat_ofNat_of_lt' (hi'.trans_le hlen)
    simp only [List.getElem_map, List.getElem_range, hindex, List.getD_eq_getElem _ _ hi']
  have hmap := hperm.map fun i => es.getD i.toNat .new
  rwa [hrange] at hmap

section Indexed
variable {a : Archive} (hindexed : a.Indexed build es ts)
include hindexed

theorem byTitle_perm : (byTitle es ts).Perm es := by
  refine byTitle_perm_of (le_of_lt ?_) hindexed.perm
  rw [hindexed.count]
  exact UInt32.toNat_lt _

theorem direntByTitle_index (p : UInt32) (hp : p < a.header.articleCount) :
    a.direntByTitle build p = .ok ((byTitle es ts).getD p.toNat .new) := by
  have hlen : ts.length = es.length := by simpa using hindexed.perm.length_eq
  have hlt : p.toNat < ts.length := by
    rw [hlen, hindexed.count]
    exact UInt32.lt_iff_toNat_lt.mp hp
  have ht := List.getElem?_eq_getElem hlt
  have hmem := hindexed.perm.mem_iff.mp (List.mem_of_getElem? ht)
  have hindex : ts[p.toNat].toNat < es.length := by
    obtain ⟨i, hi, heq⟩ := List.mem_map.mp hmem
    rw [List.mem_range] at hi
    rw [← heq, UInt32.toNat_ofNat']
    exact (Nat.mod_le _ _).trans_lt hi
  have hd := hindexed.dirent _ _ (List.getElem?_eq_getElem hindex)
  have hentry : (byTitle es ts).getD p.toNat .new = es[ts[p.toNat].toNat] := by
    rw [List.getD_eq_getElem?_getD, byTitle, List.getElem?_map, ht, Option.map_some,
      Option.getD_some, List.getD_eq_getElem _ _ hindex]
  rw [Archive.direntByTitle, hindexed.index p _ ht, hentry]
  exact hd

/-- A lookup in an archive with entries has found what its order holds. -/
theorem findx_runs (hurl : SortedBy Dirent.getUrl es) (hne : es ≠ []) (ns : UInt8) (s : Bytes) :
    Runs (Looking build a es) (findx build ns s)
      (.ok (found es Dirent.getUrl (UInt32.ofNat (namespaceBegin es ns)) (foundEnd es ns) ns s))
      (Looking build a es) :=
  search_runs hindexed hurl hne rfl (getDirent_index hindexed) ns s

theorem findxByTitle_runs (hurl : SortedBy Dirent.getUrl es) (hne : es ≠ []) (ns : UInt8)
    (s : Bytes) :
    Runs (Looking build a es) (findxByTitle build ns s)
      (.ok (found (byTitle es ts) Dirent.getTitle (UInt32.ofNat (namespaceBegin es ns))
        (foundEnd es ns) ns s)) (Looking build a es) :=
  search_runs hindexed hurl hne (byTitle_perm hindexed).length_eq
    (fun p hp => getDirentByTitle_looking (direntByTitle_index hindexed p hp)) ns s

theorem run_looking (hurl : SortedBy Dirent.getUrl es) (lookup : Lookup) :
    Preserves (Looking build a es) (lookup.run build) := by
  intro f hf
  by_cases hnil : es = []
  · cases lookup with
    | url ns s => exact (search_empty hindexed hnil ns s f hf).2
    | title ns s => exact (search_empty hindexed hnil ns s f hf).2
  · cases lookup with
    | url ns s => exact (findx_runs hindexed hurl hnil ns s f hf).2
    | title ns s => exact (findxByTitle_runs hindexed hurl hnil ns s f hf).2

theorem after_looking (hurl : SortedBy Dirent.getUrl es) {f : FileImpl}
    (hf : Looking build a es f) (lookups : List Lookup) :
    Looking build a es (Lookup.after build lookups f) := by
  induction lookups generalizing f with
  | nil => exact hf
  | cons lookup lookups ih => exact ih (run_looking hindexed hurl lookup f hf)

theorem namespaceBegin_byTitle (ch : UInt8) :
    namespaceBegin (byTitle es ts) ch = namespaceBegin es ch :=
  (byTitle_perm hindexed).countP_eq _

theorem namespaceEnd_byTitle (ch : UInt8) :
    namespaceEnd (byTitle es ts) ch = namespaceEnd es ch :=
  (byTitle_perm hindexed).countP_eq _

omit hindexed in
theorem not_belowFirst_nil {key : Dirent → Bytes} {ns : UInt8} {s : Bytes} :
    ¬ BelowFirst [] key ns s := by
  rintro ⟨d, hd, -⟩
  cases hd

omit hindexed in
/-- Without entries a lookup throws, as the law allows. -/
theorem lawful_nil (key : Dirent → Bytes) (ns : UInt8) (s : Bytes) (e : ZimError) :
    Lawful [] key ns s (.error e) ↔ ¬ BelowFirst [] key ns s :=
  iff_of_true ⟨fun h => absurd rfl h, nofun⟩ not_belowFirst_nil

omit hindexed in
theorem lawful_ok {order : List Dirent} {key : Dirent → Bytes} {ns : UInt8} {s : Bytes}
    {v : Bool × UInt32} : Lawful order key ns s (.ok v) ↔ Correct order key ns s v := by
  constructor
  · intro h
    exact h.2 v rfl
  · intro h
    refine ⟨fun _ => ⟨v, rfl⟩, fun w hw => ?_⟩
    cases hw
    exact h

theorem findx_lawful_iff (hurl : SortedBy Dirent.getUrl es) {f : FileImpl}
    (hf : Looking build a es f) (ns : UInt8) (s : Bytes) :
    Lawful es Dirent.getUrl ns s (outcome (findx build ns s f)) ↔
      ¬ BelowFirst es Dirent.getUrl ns s := by
  by_cases hnil : es = []
  · have hout : outcome (findx build ns s f) = _ := (search_empty hindexed hnil ns s f hf).1
    rw [hout, hnil]
    exact lawful_nil _ ns s _
  · rw [(findx_runs hindexed hurl hnil ns s f hf).1, lawful_ok]
    exact found_correct_iff hurl hnil (namespaceBegin_toNat hindexed ns)
      (foundEnd_toNat hindexed ns)

theorem findxByTitle_lawful_iff (hurl : SortedBy Dirent.getUrl es)
    (htitle : SortedBy Dirent.getTitle (byTitle es ts)) {f : FileImpl}
    (hf : Looking build a es f) (ns : UInt8) (s : Bytes) :
    Lawful (byTitle es ts) Dirent.getTitle ns s (outcome (findxByTitle build ns s f)) ↔
      ¬ BelowFirst (byTitle es ts) Dirent.getTitle ns s := by
  have hperm := byTitle_perm hindexed
  by_cases hnil : es = []
  · have hout : outcome (findxByTitle build ns s f) = _ :=
      (search_empty hindexed hnil ns s f hf).1
    have htnil : byTitle es ts = [] := List.Perm.eq_nil (hnil ▸ hperm)
    rw [hout, htnil]
    exact lawful_nil _ ns s _
  · have htne : byTitle es ts ≠ [] := fun h => hnil (List.Perm.eq_nil (h ▸ hperm).symm)
    rw [(findxByTitle_runs hindexed hurl hnil ns s f hf).1, lawful_ok]
    apply found_correct_iff htitle htne
    · rw [namespaceBegin_byTitle hindexed, namespaceBegin_toNat hindexed]
    · rw [namespaceEnd_byTitle hindexed, foundEnd_toNat hindexed]

end Indexed

theorem new_looking (hnew : new build archive direntCache clusterCache = .ok f₀) :
    Looking build ⟨archive, f₀.header, f₀.mimeTypes⟩ es f₀ := by
  obtain ⟨hfresh, -⟩ := new_ok hnew
  refine ⟨new_serves hnew, fun ch ret h => ?_, fun ch ret h => ?_⟩
  · rw [hfresh.namespaceBeginCache] at h
    cases h
  · rw [hfresh.namespaceEndCache] at h
    cases h

/-- After any lookups in an archive in order, a lookup obeys its law if and only if it does not ask
for the key of the first entry in a namespace before this entry's. -/
theorem lookups_lawful_iff (hnew : new build archive direntCache clusterCache = .ok f₀)
    (hindexed : Archive.Indexed build ⟨archive, f₀.header, f₀.mimeTypes⟩ es ts)
    (hurl : SortedBy Dirent.getUrl es) (htitle : SortedBy Dirent.getTitle (byTitle es ts))
    (lookups : List Lookup) (ns : UInt8) (s : Bytes) :
    (Lawful es Dirent.getUrl ns s (outcome (findx build ns s (Lookup.after build lookups f₀))) ↔
      ¬ BelowFirst es Dirent.getUrl ns s) ∧
    (Lawful (byTitle es ts) Dirent.getTitle ns s
        (outcome (findxByTitle build ns s (Lookup.after build lookups f₀))) ↔
      ¬ BelowFirst (byTitle es ts) Dirent.getTitle ns s) := by
  have hafter := after_looking hindexed hurl (new_looking hnew) lookups
  exact ⟨findx_lawful_iff hindexed hurl hafter ns s,
    findxByTitle_lawful_iff hindexed hurl htitle hafter ns s⟩

end Runs

section Examples

theorem of_zipIdx {α : Type} {l : List α} {P : UInt32 → α → Prop}
    (h : ∀ p ∈ l.zipIdx, P (UInt32.ofNat p.2) p.1) {i : UInt32} {v : α}
    (hv : l[i.toNat]? = some v) : P i v := by
  have hp := h (v, i.toNat) (List.mk_mem_zipIdx_iff_getElem?.mpr hv)
  rwa [UInt32.ofNat_toNat] at hp

/-- The entries and the title index of an archive are looked up one after another. -/
def holdsEntries (archive : Bytes) (es : List Dirent) (ts : List UInt32) (f : FileImpl) : Bool :=
  let a : Archive := ⟨archive, f.header, f.mimeTypes⟩
  es.length = f.header.articleCount.toNat &&
    es.zipIdx.all (fun p => a.dirent .noCodecs (UInt32.ofNat p.2) = .ok p.1) &&
    ts.zipIdx.all fun p => a.indexByTitle .noCodecs (UInt32.ofNat p.2) = .ok p.1

theorem indexed_of_holdsEntries {archive : Bytes} {es : List Dirent} {ts : List UInt32}
    {f : FileImpl} (h : holdsEntries archive es ts f = true)
    (hperm : ts.Perm ((List.range es.length).map UInt32.ofNat)) :
    Archive.Indexed .noCodecs ⟨archive, f.header, f.mimeTypes⟩ es ts := by
  simp only [holdsEntries, Bool.and_eq_true, List.all_eq_true, decide_eq_true_eq] at h
  obtain ⟨⟨hcount, hdirent⟩, hindex⟩ := h
  refine ⟨hcount, fun i d hd => ?_, fun i t ht => ?_, hperm⟩
  · exact of_zipIdx (P := fun i d => Archive.dirent _ _ i = .ok d) hdirent hd
  · exact of_zipIdx (P := fun i t => Archive.indexByTitle _ _ i = .ok t) hindex ht

/-- Two entries and a redirect in two namespaces, the first two in another order by title. -/
def threeEntries : List Dirent :=
  [{ Dirent.new with mimeType := 1, ns := 65, url := [0x62], title := [0x7A] },
    { Dirent.new.setRedirect 2 with ns := 65, url := [0x63], title := [0x61] },
    { Dirent.new with blobNumber := 1, ns := 67, url := [0x61] }]

/-- Two mime types, three entries, and a cluster with two blobs. -/
def threeEntriesArchive : Bytes :=
  Fileheader.write .little
    { Fileheader.default with
      articleCount := 3, mimeListPos := 80, urlPtrPos := 85, titleIdxPos := 109,
      clusterCount := 1, clusterPtrPos := 176, checksumPos := 200 } ++
  [0x70, 0, 0x74, 0, 0] ++ [121, 141, 157].flatMap (LittleEndian.encode 8) ++
  [1, 0, 2].flatMap (LittleEndian.encode 4) ++ threeEntries.flatMap (Dirent.write .little) ++
  LittleEndian.encode 8 184 ++ 1 :: [12, 13, 15].flatMap (LittleEndian.encode 4) ++ [1, 2, 3]

theorem threeEntriesArchive_opens : ∃ f, new .noCodecs threeEntriesArchive 2 2 = .ok f ∧
    Archive.Indexed .noCodecs ⟨threeEntriesArchive, f.header, f.mimeTypes⟩ threeEntries
      [1, 0, 2] := by
  have hcheck : Fallible.passes (new .noCodecs threeEntriesArchive 2 2)
      (holdsEntries threeEntriesArchive threeEntries [1, 0, 2]) = true := by decide +kernel
  obtain ⟨f, hnew, hholds⟩ := Fallible.exists_of_passes hcheck
  exact ⟨f, hnew, indexed_of_holdsEntries hholds (by decide)⟩

theorem threeEntries_sorted : SortedBy Dirent.getUrl threeEntries ∧
    SortedBy Dirent.getTitle (byTitle threeEntries [1, 0, 2]) := by
  unfold SortedBy
  decide

theorem lookups_lawful_iff_threeEntries :
    ∃ f, new .noCodecs threeEntriesArchive 2 2 = .ok f ∧
      (Lawful threeEntries Dirent.getUrl 67 [0x61]
          (outcome (findx .noCodecs 67 [0x61] (Lookup.after .noCodecs
            [.title 65 [0x61], .url 66 [0x62]] f))) ↔
        ¬ BelowFirst threeEntries Dirent.getUrl 67 [0x61]) ∧
      (Lawful (byTitle threeEntries [1, 0, 2]) Dirent.getTitle 67 [0x61]
          (outcome (findxByTitle .noCodecs 67 [0x61] (Lookup.after .noCodecs
            [.title 65 [0x61], .url 66 [0x62]] f))) ↔
        ¬ BelowFirst (byTitle threeEntries [1, 0, 2]) Dirent.getTitle 67 [0x61]) := by
  obtain ⟨f, hnew, hindexed⟩ := threeEntriesArchive_opens
  exact ⟨f, hnew, lookups_lawful_iff hnew hindexed threeEntries_sorted.1 threeEntries_sorted.2
    [.title 65 [0x61], .url 66 [0x62]] 67 [0x61]⟩

/-- An archive with one entry. -/
def oneEntry : Dirent := { Dirent.new with ns := 66, url := [120] }

def oneEntryArchive : Bytes :=
  Fileheader.write .little
    { Fileheader.default with
      articleCount := 1, mimeListPos := 80, urlPtrPos := 81, titleIdxPos := 89,
      clusterPtrPos := 112, checksumPos := 112 } ++
  [0] ++ LittleEndian.encode 8 93 ++ LittleEndian.encode 4 0 ++ oneEntry.write .little

theorem oneEntryArchive_opens : ∃ f, new .noCodecs oneEntryArchive 2 2 = .ok f ∧
    Archive.Indexed .noCodecs ⟨oneEntryArchive, f.header, f.mimeTypes⟩ [oneEntry] [0] ∧
    outcome (findx .noCodecs 65 [120] f) = .ok (true, 0) := by
  have hcheck : Fallible.passes (new .noCodecs oneEntryArchive 2 2) (fun f =>
      holdsEntries oneEntryArchive [oneEntry] [0] f &&
        outcome (findx .noCodecs 65 [120] f) = .ok (true, 0)) = true := by decide +kernel
  obtain ⟨f, hnew, hf⟩ := Fallible.exists_of_passes hcheck
  rw [Bool.and_eq_true, decide_eq_true_eq] at hf
  exact ⟨f, hnew, indexed_of_holdsEntries hf.1 (List.Perm.refl _), hf.2⟩

/-- A lookup may find an entry of another namespace. -/
theorem not_lookups_lawful : ¬ ∀ (build : Build) (archive : Bytes)
    (direntCache clusterCache : ℕ) (f₀ : FileImpl) (es : List Dirent) (ts : List UInt32),
    new build archive direntCache clusterCache = .ok f₀ →
    Archive.Indexed build ⟨archive, f₀.header, f₀.mimeTypes⟩ es ts →
    SortedBy Dirent.getUrl es → SortedBy Dirent.getTitle (byTitle es ts) →
    ∀ (ns : UInt8) (s : Bytes), Lawful es Dirent.getUrl ns s (outcome (findx build ns s f₀)) ∧
      Lawful (byTitle es ts) Dirent.getTitle ns s (outcome (findxByTitle build ns s f₀)) := by
  intro hall
  obtain ⟨f, hnew, hindexed, hfound⟩ := oneEntryArchive_opens
  have hlaw := (hall .noCodecs oneEntryArchive 2 2 f [oneEntry] [0] hnew hindexed
    (List.pairwise_singleton _ _) (List.pairwise_singleton _ _) 65 [120]).1
  rw [hfound] at hlaw
  obtain ⟨d, hd, hns, -⟩ := (hlaw.2 _ rfl).found rfl
  cases hd
  revert hns
  decide

end Examples

end File
end Zim
