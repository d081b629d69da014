import Zim.Reader.Search

/-! When a search for titles finds all that it looks for. -/
namespace Zim
open Cxx Stateful FileImpl Bisect

namespace File
section Order
variable {order : List Dirent} {key : Dirent → Bytes} {ns : UInt8} {s : Bytes} {l u : UInt32}
  {i : ℕ} {d : Dirent} {r : Bool × UInt32}

/-- The number of entries before the first one with the key `s` in the namespace. -/
def keyBegin (order : List Dirent) (key : Dirent → Bytes) (ns : UInt8) (s : Bytes) : ℕ :=
  order.countP fun d => charStringKey d.getNamespace (key d) < charStringKey ns s

/-- The number of entries up to the last one with the key `s` in the namespace. -/
def keyEnd (order : List Dirent) (key : Dirent → Bytes) (ns : UInt8) (s : Bytes) : ℕ :=
  order.countP fun d => charStringKey d.getNamespace (key d) ≤ charStringKey ns s

/-- The first middle that meets an entry with the key `s`, as the range of the namespace is halved,
meets the first one. -/
def MeetsFirst (order : List Dirent) (key : Dirent → Bytes) (ns : UInt8) (s : Bytes) : Prop :=
  ∀ m ∈ firstMiddle (keyBegin order key ns s) (keyEnd order key ns s) (namespaceBegin order ns)
    (namespaceEnd order ns), m = keyBegin order key ns s

/-- A key that occurs once can be met there only. -/
theorem MeetsFirst.of_once (h : keyEnd order key ns s ≤ keyBegin order key ns s + 1) :
    MeetsFirst order key ns s := by
  intro m hm
  have hin := firstMiddle_some hm
  omega

section Sorted
variable (hsorted : SortedBy key order)
include hsorted

theorem lt_keyBegin (hd : order[i]? = some d) : i < keyBegin order key ns s ↔
    charStringKey d.getNamespace (key d) < charStringKey ns s := by
  have hfront : order.Pairwise fun d d' =>
      decide (charStringKey d'.getNamespace (key d') < charStringKey ns s) = true →
        decide (charStringKey d.getNamespace (key d) < charStringKey ns s) = true :=
    hsorted.imp fun hle hlt => by
      simp only [decide_eq_true_eq] at hlt ⊢
      exact hle.trans_lt hlt
  rw [keyBegin, lt_countP_iff hfront hd, decide_eq_true_eq]

theorem lt_keyEnd (hd : order[i]? = some d) : i < keyEnd order key ns s ↔
    charStringKey d.getNamespace (key d) ≤ charStringKey ns s := by
  have hfront : order.Pairwise fun d d' =>
      decide (charStringKey d'.getNamespace (key d') ≤ charStringKey ns s) = true →
        decide (charStringKey d.getNamespace (key d) ≤ charStringKey ns s) = true :=
    hsorted.imp fun hle hle' => by
      simp only [decide_eq_true_eq] at hle' ⊢
      exact hle.trans hle'
  rw [keyEnd, lt_countP_iff hfront hd, decide_eq_true_eq]

/-- The entries with a key in a namespace follow each other. -/
theorem key_iff (hd : order[i]? = some d) : d.getNamespace = ns ∧ key d = s ↔
    keyBegin order key ns s ≤ i ∧ i < keyEnd order key ns s := by
  rw [lt_keyEnd hsorted hd, ← Nat.not_lt, lt_keyBegin hsorted hd, not_lt, ← charStringKey_inj,
    and_comm, le_antisymm_iff]

/-- The side on which the search for a key goes on inside its namespace. -/
theorem compare_within (hd : order[i]? = some d) (hns : d.getNamespace = ns) :
    compare ns s key d = if i < keyBegin order key ns s then .gt
      else if i < keyEnd order key ns s then .eq else .lt := by
  have hbegin : charStringKey d.getNamespace (key d) < charStringKey ns s ↔ key d < s := by
    rw [hns, charStringKey_lt]
    simp
  have hend : charStringKey d.getNamespace (key d) ≤ charStringKey ns s ↔ key d ≤ s := by
    rw [hns, charStringKey_le]
  rw [compare_eq hns, if_congr (lt_keyBegin hsorted hd) rfl rfl,
    if_congr (lt_keyEnd hsorted hd) rfl rfl, if_congr hbegin rfl rfl, if_congr hend rfl rfl]
  split_ifs with hlt hle
  · exact stringCompare_gt_iff.mpr hlt
  · exact stringCompare_eq_iff.mpr (le_antisymm (not_lt.mp hlt) hle)
  · exact stringCompare_lt_iff.mpr (not_le.mp hle)

/-- Nothing with the key is before a place with it if and only if this is the first such place. -/
theorem none_before_iff {p : ℕ} (hp : keyBegin order key ns s ≤ p ∧ p < keyEnd order key ns s) :
    (∀ i < p, ∀ d, order[i]? = some d → d.getNamespace = ns → key d ≠ s) ↔
      p = keyBegin order key ns s := by
  constructor
  · intro hnone
    by_contra hlater
    have hlt : keyBegin order key ns s < p := lt_of_le_of_ne hp.1 (Ne.symm hlater)
    have hlen : keyEnd order key ns s ≤ order.length := List.countP_le_length
    have hfirst := List.getElem?_eq_getElem (hlt.trans (hp.2.trans_le hlen))
    obtain ⟨hns, hkey⟩ := (key_iff hsorted hfirst).mpr ⟨le_rfl, hlt.trans hp.2⟩
    exact hnone _ hlt _ hfirst hns hkey
  · intro heq i hi e he hens hkey
    have hin := (key_iff hsorted he).mp ⟨hens, hkey⟩
    omega

theorem MeetsFirst.of_absent (hnone : ∀ d ∈ order, d.getNamespace ≠ ns) :
    MeetsFirst order key ns s := by
  intro m hm
  have hrange := firstMiddle_some hm
  have hlen : keyEnd order key ns s ≤ order.length := List.countP_le_length
  have hd := List.getElem?_eq_getElem (hrange.2.trans_le hlen)
  exact absurd ((key_iff hsorted hd).mpr hrange).1 (hnone _ (List.getElem_mem _))

theorem BelowFirst.absent (h : BelowFirst order key ns s) :
    ∀ e ∈ order, e.getNamespace ≠ ns := by
  obtain ⟨d, hd, hbelow, -⟩ := h
  intro e he hns
  obtain ⟨i, hi⟩ := List.getElem?_of_mem he
  have hin := (namespace_iff hsorted hi).mp hns
  have hfirst := lt_namespaceEnd ns hsorted hd
  have hpos : 0 < namespaceEnd order ns := by omega
  exact absurd (hfirst.mp hpos) (not_le.mpr hbelow)

/-- What a lookup has found splits the keys of the namespace. -/
theorem Correct.splits (h : Correct order key ns s r) (hd : order[i]? = some d)
    (hns : d.getNamespace = ns) : namespaceBegin order ns ≤ r.2.toNat ∧
      (r.2.toNat ≤ i → s ≤ key d) ∧ (i < r.2.toNat → key d ≤ s) := by
  obtain ⟨hit, p⟩ := r
  cases hit with
  | true =>
    obtain ⟨e, he, hens, rfl⟩ := h.found rfl
    refine ⟨((namespace_iff hsorted he).mp hens).1, fun hle => ?_, fun hlt => ?_⟩
    · exact key_le hsorted he hd hle (hens.trans hns.symm)
    · exact key_le hsorted hd he hlt.le (hns.trans hens.symm)
  | false =>
    rcases h.position rfl ⟨d, List.mem_of_getElem? hd, hns⟩ with
      ⟨e, he, hens, hlt, hbefore⟩ | ⟨hall, hp⟩
    · refine ⟨((namespace_iff hsorted he).mp hens).1, fun hle => ?_, fun hip => ?_⟩
      · exact hlt.le.trans (key_le hsorted he hd hle (hens.trans hns.symm))
      · exact hbefore i hip d hd hns
    · refine ⟨hp ▸ namespaceBegin_le_end ns, fun hle => ?_, fun _ => ?_⟩
      · have hin := ((namespace_iff hsorted hd).mp hns).2
        simp only at hp hle
        omega
      · exact hall d (List.mem_of_getElem? hd) hns

variable (hne : order ≠ []) (hl : l.toNat = namespaceBegin order ns)
  (hu : u.toNat = max 1 (namespaceEnd order ns))
include hne hl hu

theorem found_splits (hd : order[i]? = some d) (hns : d.getNamespace = ns) :
    namespaceBegin order ns ≤ (found order key l u ns s).2.toNat ∧
      ((found order key l u ns s).2.toNat ≤ i → s ≤ key d) ∧
      (i < (found order key l u ns s).2.toNat → key d ≤ s) := by
  by_cases hbelow : BelowFirst order key ns s
  · exact absurd hns (hbelow.absent hsorted d (List.mem_of_getElem? hd))
  · exact ((found_correct_iff hsorted hne hl hu).mpr hbelow).splits hsorted hd hns

omit hne in
/-- A lookup leaves entries with the key behind if and only if the first one that a middle meets is
not the first one. -/
theorem found_first : (∀ i < (found order key l u ns s).2.toNat, ∀ d, order[i]? = some d →
    d.getNamespace = ns → key d ≠ s) ↔ MeetsFirst order key ns s := by
  by_cases hsome : ∃ d ∈ order, d.getNamespace = ns
  · obtain ⟨d₀, hd₀, hns₀⟩ := hsome
    obtain ⟨i₀, hi₀⟩ := List.getElem?_of_mem hd₀
    have hin₀ := (namespace_iff hsorted hi₀).mp hns₀
    rw [max_eq_right (by omega)] at hu
    have hlt : l < u := UInt32.lt_iff_toNat_lt.mpr (by omega)
    have hcorrect := found_correct (s := s) hsorted hl hu
    have hside : ∀ p, l < p → p < u → compare ns s key (order.getD p.toNat .new) =
        if p.toNat < keyBegin order key ns s then .gt
        else if p.toNat < keyEnd order key ns s then .eq else .lt := by
      intro p hlp hpu
      obtain ⟨hd, hns⟩ := getD_within hsorted hl hu (UInt32.le_of_lt hlp) hpu
      exact compare_within hsorted hd hns
    have hmiddle := bisect_firstMiddle hlt hside
    have hends := bisect_ends (fun p => compare ns s key (order.getD p.toNat .new)) hlt
    rw [hl, hu] at hmiddle
    unfold MeetsFirst
    rw [← hmiddle]
    unfold found at hcorrect ⊢
    rw [if_neg (UInt32.ne_of_lt hlt)] at hcorrect ⊢
    generalize bisect (m := Id) (fun p => compare ns s key (order.getD p.toNat .new)) l u = r
      at hcorrect hends hmiddle ⊢
    obtain ⟨hit, l', u'⟩ := r
    cases hit with
    | some p =>
      have hp := firstMiddle_some hmiddle.symm
      simp only [Option.map_some, Option.mem_some_iff, forall_eq']
      exact none_before_iff hsorted hp
    | none =>
      simp only [Option.map_none, Option.not_mem_none, IsEmpty.forall_iff, implies_true, iff_true]
      simp only at hcorrect
      have hl' : l' < u := UInt32.lt_of_lt_of_le hends.lt hends.upper
      intro i hi e he hens hkey
      cases hcmp : stringCompare s (key (order.getD l'.toNat .new)) with
      | lt =>
        rw [hcmp] at hcorrect
        exact hcorrect.absent rfl e (List.mem_of_getElem? he) ⟨hens, hkey⟩
      | gt =>
        rw [hcmp] at hcorrect
        exact hcorrect.absent rfl e (List.mem_of_getElem? he) ⟨hens, hkey⟩
      | eq =>
        -- the lower bound has not been moved, and nothing of the namespace is before it
        have hfirst : l' = l := by
          rcases hends.fromLower with heq | hgt
          · exact heq
          · obtain ⟨-, hns⟩ := getD_within hsorted hl hu hends.lower hl'
            simp only [compare_eq hns, hcmp] at hgt
            cases hgt
        rw [hcmp] at hi
        simp only [hfirst] at hi
        have hin := (namespace_iff hsorted he).mp hens
        omega
  · have hnone : ∀ d ∈ order, d.getNamespace ≠ ns := fun d hd hns => hsome ⟨d, hd, hns⟩
    apply iff_of_true _ (MeetsFirst.of_absent hsorted hnone)
    intro i _ d hd hns
    exact absurd hns (hnone d (List.mem_of_getElem? hd))

end Sorted

theorem found_le (hu : u.toNat ≤ order.length) (hlt : l = u ∨ l < u)
    (hlen : order.length < 2 ^ 32) :
    (found order key l u ns s).2.toNat ≤ order.length := by
  unfold found
  split_ifs with heq
  · exact (UInt32.toNat_ofNat_of_lt' hlen).le
  · have hlt' := hlt.resolve_left heq
    have hends := bisect_ends (fun p => compare ns s key (order.getD p.toNat .new)) hlt'
    generalize bisect (m := Id) (fun p => compare ns s key (order.getD p.toNat .new)) l u = r
      at hends ⊢
    obtain ⟨hit, l', u'⟩ := r
    have hupper := UInt32.le_iff_toNat_le.mp hends.upper
    have hbetween := UInt32.lt_iff_toNat_lt.mp hends.lt
    simp only at hupper hbetween
    cases hit with
    | some p =>
      obtain ⟨-, -, hpu⟩ := hends.hit p rfl
      rw [UInt32.lt_iff_toNat_lt] at hpu
      simp only
      omega
    | none =>
      simp only
      cases stringCompare s (key (order.getD l'.toNat .new)) with
      | eq => simp only; omega
      | lt => simp only; omega
      | gt => simp only; omega

end Order
end File

namespace Search

/-- The titles `wanted` are the ones from `s` on up to the first one that is `outside`. -/
structure Scannable (s : Bytes) (wanted outside : Bytes → Bool) : Prop where
  lower : ∀ t, wanted t = true → s ≤ t
  stop : ∀ t, s ≤ t → outside t = !wanted t
  convex : ∀ t t', s ≤ t → t ≤ t' → wanted t' = true → wanted t = true

theorem scannable_praefix (s : Bytes) : Scannable s (fun t => s.isPrefixOf t)
    (fun t => stringCompare (t.take s.length) s = .gt) where
  lower t h := by
    rw [List.isPrefixOf_iff_prefix, prefix_iff_take] at h
    calc s = t.take s.length := h.symm
      _ ≤ t := take_le t s.length
  stop t h := by
    have htake := take_mono h s.length
    rw [List.take_length] at htake
    rw [Bool.eq_iff_iff, decide_eq_true_eq, stringCompare_gt_iff, Bool.not_eq_true',
      ← Bool.not_eq_true, List.isPrefixOf_iff_prefix, prefix_iff_take]
    exact ⟨fun hlt heq => hlt.ne heq.symm, fun hne => lt_of_le_of_ne htake (Ne.symm hne)⟩
  convex t t' hst htt' h := by
    rw [List.isPrefixOf_iff_prefix, prefix_iff_take] at h ⊢
    have hlow := take_mono hst s.length
    rw [List.take_length] at hlow
    have hhigh := take_mono htt' s.length
    exact le_antisymm (hhigh.trans_eq h) hlow

theorem scannable_range (first last : Bytes) :
    Scannable first (fun t => first ≤ t && t ≤ last) (fun t => stringCompare t last = .gt) where
  lower t h := by
    rw [Bool.and_eq_true, decide_eq_true_eq] at h
    exact h.1
  stop t h := by
    rw [Bool.eq_iff_iff, decide_eq_true_eq, stringCompare_gt_iff]
    simp [h]
  convex t t' hst htt' h := by
    rw [Bool.and_eq_true, decide_eq_true_eq, decide_eq_true_eq] at h ⊢
    exact ⟨hst, htt'.trans h.2⟩

section Lists
variable {build : Build} {a : Archive} {es : List Dirent} {ts : List UInt32}

def isWanted (es : List Dirent) (ns : UInt8) (wanted : Bytes → Bool) (t : UInt32) : Bool :=
  (entry es t).getNamespace = ns && wanted (entry es t).getTitle

theorem isWanted_iff {ns : UInt8} {wanted : Bytes → Bool} {t : UInt32} :
    isWanted es ns wanted t = true ↔
      (entry es t).getNamespace = ns ∧ wanted (entry es t).getTitle = true := by
  rw [isWanted, Bool.and_eq_true, decide_eq_true_eq]

/-- The entries of a namespace with titles that are wanted, in the order of the title index. -/
def matching (es : List Dirent) (ts : List UInt32) (ns : UInt8) (wanted : Bytes → Bool) :
    List UInt32 :=
  ts.filter (isWanted es ns wanted)

/-- `r` lists the first `limit` of the entries that are wanted in the order of their titles. -/
structure Lists (es : List Dirent) (ts : List UInt32) (ns : UInt8) (wanted : Bytes → Bool)
    (limit : UInt32) (r : Except ZimError (List SearchResult)) : Prop where
  ordered : (matching es ts ns wanted).Pairwise fun t u =>
    (entry es t).getTitle ≤ (entry es u).getTitle
  exact : r = .ok (resultsOf ((matching es ts ns wanted).take limit.toNat))

theorem resultsOf_injective : Function.Injective resultsOf := by
  apply List.map_injective_iff.mpr
  intro t u h
  cases h
  rfl

theorem byTitle_getElem? {i : ℕ} {t : UInt32} (ht : ts[i]? = some t) :
    (byTitle es ts)[i]? = some (entry es t) := by
  rw [byTitle, List.getElem?_map, ht]
  rfl

theorem byTitle_eq_some {i : ℕ} {d : Dirent} (hd : (byTitle es ts)[i]? = some d) :
    ∃ t, ts[i]? = some t ∧ entry es t = d := by
  rw [byTitle, List.getElem?_map, Option.map_eq_some_iff] at hd
  exact hd

/-- What is wanted of a namespace is in the order of the titles, if the title index is. -/
theorem matching_ordered (htitle : SortedBy Dirent.getTitle (byTitle es ts)) (ns : UInt8)
    (wanted : Bytes → Bool) : (matching es ts ns wanted).Pairwise fun t u =>
      (entry es t).getTitle ≤ (entry es u).getTitle := by
  unfold SortedBy byTitle at htitle
  rw [List.pairwise_map] at htitle
  refine (htitle.sublist List.filter_sublist).imp_of_mem fun {t u} ht hu hle => ?_
  have hns := (isWanted_iff.mp (List.mem_filter.mp ht).2).1
  have hns' := (isWanted_iff.mp (List.mem_filter.mp hu).2).1
  have hle' : charStringKey (entry es t).getNamespace (entry es t).getTitle ≤
      charStringKey (entry es u).getNamespace (entry es u).getTitle := hle
  rwa [hns, hns', charStringKey_le] at hle'

/-- The place of a search in the order of the title index. -/
def place (es : List Dirent) (ts : List UInt32) (ns : UInt8) (s : Bytes) : UInt32 :=
  (File.found (byTitle es ts) Dirent.getTitle (UInt32.ofNat (namespaceBegin es ns))
    (foundEnd es ns) ns s).2

section Indexed
variable (hindexed : a.Indexed build es ts)
include hindexed

theorem place_le (hne : es ≠ []) (ns : UInt8) (s : Bytes) :
    place es ts ns s ≤ a.header.articleCount := by
  have hlen := (File.byTitle_perm hindexed).length_eq
  rw [UInt32.le_iff_toNat_le, ← hindexed.count, ← hlen]
  apply File.found_le
  · rw [hlen, hindexed.count]
    exact UInt32.le_iff_toNat_le.mp (foundEnd_le_count hindexed hne ns)
  · by_cases heq : UInt32.ofNat (namespaceBegin es ns) = foundEnd es ns
    · exact .inl heq
    · exact .inr (namespaceBegin_lt_foundEnd hindexed heq)
  · rw [hlen]
    exact length_lt hindexed

/-- Both searches run from the place of the first title on. -/
theorem scan_runs (hurl : SortedBy Dirent.getUrl es) (hne : es ≠ []) (ns : UInt8) (s : Bytes)
    (outside : Bytes → Bool) (n : ℕ) (results : List SearchResult) :
    Runs (Looking build a es)
      (do findLoop build ns outside n (← File.findByTitle build ns s) results)
      (.ok (results ++ resultsOf
        (((ts.drop (place es ts ns s).toNat).takeWhile (inside es ns outside)).take n)))
      (Looking build a es) := by
  have hfind : Runs (Looking build a es) (File.findByTitle build ns s)
      (.ok (.new (place es ts ns s) .articleIterator)) (Looking build a es) :=
    (File.findxByTitle_runs hindexed hurl hne ns s).bind (.pure fun _ h => h)
  exact hfind.bind (findLoop_runs hindexed ns outside n (place_le hindexed hne ns s) results)

section Sorted
variable (htitle : SortedBy Dirent.getTitle (byTitle es ts))
include htitle

theorem place_splits (hne : es ≠ []) {ns : UInt8} {s : Bytes} {i : ℕ} {t : UInt32}
    (ht : ts[i]? = some t) (hns : (entry es t).getNamespace = ns) :
    namespaceBegin (byTitle es ts) ns ≤ (place es ts ns s).toNat ∧
      ((place es ts ns s).toNat ≤ i → s ≤ (entry es t).getTitle) ∧
      (i < (place es ts ns s).toNat → (entry es t).getTitle ≤ s) := by
  have hperm := File.byTitle_perm hindexed
  apply File.found_splits htitle (fun h => hne (List.Perm.eq_nil (h ▸ hperm).symm))
  · rw [File.namespaceBegin_byTitle hindexed, namespaceBegin_toNat hindexed]
  · rw [File.namespaceEnd_byTitle hindexed, foundEnd_toNat hindexed]
  · exact byTitle_getElem? ht
  · exact hns

theorem place_first (ns : UInt8) (s : Bytes) :
    (∀ i < (place es ts ns s).toNat, ∀ d, (byTitle es ts)[i]? = some d → d.getNamespace = ns →
      d.getTitle ≠ s) ↔ File.MeetsFirst (byTitle es ts) Dirent.getTitle ns s := by
  apply File.found_first htitle
  · rw [File.namespaceBegin_byTitle hindexed, namespaceBegin_toNat hindexed]
  · rw [File.namespaceEnd_byTitle hindexed, foundEnd_toNat hindexed]

variable (hne : es ≠ []) {s : Bytes} {wanted outside : Bytes → Bool}
  (hscan : Scannable s wanted outside) (ns : UInt8)
include hne hscan

/-- Behind its place a search meets the entries wanted first, and nothing else passes its test. -/
theorem drop_place :
    (∀ t ∈ ts.drop (place es ts ns s).toNat, inside es ns outside t = isWanted es ns wanted t) ∧
    (ts.drop (place es ts ns s).toNat).Pairwise fun t u =>
      isWanted es ns wanted u = true → isWanted es ns wanted t = true := by
  constructor
  · intro t ht
    obtain ⟨i, hi⟩ := List.getElem?_of_mem ht
    rw [List.getElem?_drop] at hi
    by_cases hns : (entry es t).getNamespace = ns
    · have hlow := (place_splits hindexed htitle hne hi hns).2.1 (Nat.le_add_right _ _)
      rw [inside, isWanted, hscan.stop _ hlow, Bool.not_not]
    · simp [inside, isWanted, hns]
  · rw [List.pairwise_iff_getElem]
    intro i j hi hj hij hu
    have ht := List.getElem?_eq_getElem hi
    have hu' := List.getElem?_eq_getElem hj
    generalize (ts.drop (place es ts ns s).toNat)[i] = t at ht ⊢
    generalize (ts.drop (place es ts ns s).toNat)[j] = u at hu hu'
    rw [List.getElem?_drop] at ht hu'
    rw [isWanted_iff] at hu ⊢
    obtain ⟨hlow, -, -⟩ := place_splits hindexed htitle hne (s := s) hu' hu.1
    have hue : (byTitle es ts)[(place es ts ns s).toNat + j]? = some (entry es u) :=
      byTitle_getElem? hu'
    have hin := (File.namespace_iff htitle hue).mp hu.1
    have hns : (entry es t).getNamespace = ns :=
      (File.namespace_iff htitle (byTitle_getElem? ht)).mpr ⟨by omega, by omega⟩
    have hst := (place_splits hindexed htitle hne ht hns).2.1 (Nat.le_add_right _ _)
    have htu := File.key_le htitle (byTitle_getElem? ht) hue (by omega)
      (hns.trans hu.1.symm)
    exact ⟨hns, hscan.convex _ _ hst htu hu.2⟩

/-- Before its place there is nothing wanted but the title that it looks for. -/
theorem take_place : (∀ t ∈ ts.take (place es ts ns s).toNat, isWanted es ns wanted t = false) ↔
    wanted s = false ∨ File.MeetsFirst (byTitle es ts) Dirent.getTitle ns s := by
  rw [← place_first hindexed htitle]
  constructor
  · intro hnone
    by_cases hwanted : wanted s = true
    · refine .inr fun i hi d hd hns hkey => ?_
      obtain ⟨t, ht, rfl⟩ := byTitle_eq_some hd
      have hmem : t ∈ ts.take (place es ts ns s).toNat :=
        List.mem_of_getElem? (by rwa [List.getElem?_take_of_lt hi])
      have hfalse := hnone t hmem
      simp [isWanted, hns, hkey, hwanted] at hfalse
    · exact .inl (Bool.not_eq_true _ ▸ hwanted)
  · intro hor t ht
    obtain ⟨i, hlt, rfl⟩ := List.getElem_of_mem ht
    rw [List.length_take, Nat.lt_min] at hlt
    have hi := List.getElem?_eq_getElem hlt.2
    by_contra htrue
    rw [Bool.not_eq_false, List.getElem_take, isWanted_iff] at htrue
    obtain ⟨-, -, hhigh⟩ := place_splits hindexed htitle hne (s := s) hi htrue.1
    have heq : (entry es ts[i]).getTitle = s := le_antisymm (hhigh hlt.1) (hscan.lower _ htrue.2)
    rcases hor with hfalse | hfirst
    · rw [heq, hfalse] at htrue
      exact Bool.false_ne_true htrue.2
    · exact hfirst i hlt.1 _ (byTitle_getElem? hi) htrue.1 heq

/-- A search lists what it looks for if and only if it asks for nothing, does not want its first
title, or comes to the first entry with this title. -/
theorem lists_iff (hurl : SortedBy Dirent.getUrl es) {f : FileImpl} (hf : Looking build a es f)
    (limit : UInt32) :
    Lists es ts ns wanted limit (outcome
      ((do findLoop build ns outside limit.toNat (← File.findByTitle build ns s) []) f)) ↔
      limit = 0 ∨ wanted s = false ∨
        File.MeetsFirst (byTitle es ts) Dirent.getTitle ns s := by
  have hout := (scan_runs hindexed hurl hne ns s outside limit.toNat [] f hf).1
  obtain ⟨htest, hfirst⟩ := drop_place hindexed htitle hne hscan ns
  have hscanned := Scan.scan_eq_iff (index_nodup hindexed) htest hfirst limit.toNat
  rw [take_place hindexed htitle hne hscan ns] at hscanned
  have hzero : limit.toNat = 0 ↔ limit = 0 := by
    rw [← UInt32.toNat_inj]
    rfl
  rw [hout, List.nil_append, ← hzero, ← hscanned]
  constructor
  · intro h
    exact resultsOf_injective (Except.ok.inj h.exact)
  · intro h
    exact ⟨matching_ordered htitle ns wanted, congrArg (Except.ok ∘ resultsOf) h⟩

end Sorted

/-- The search for a praefix, starting from empty results, lists what it looks for. -/
def Finds (build : Build) (es : List Dirent) (ts : List UInt32) (ns : UInt8) (praefix : Bytes)
    (limit : UInt32) (f : FileImpl) : Prop :=
  Lists es ts ns (fun t => praefix.isPrefixOf t) limit
    (outcome (find build [] ns praefix limit f))

/-- The search for a range, starting from empty results, lists what it looks for. -/
def FindsRange (build : Build) (es : List Dirent) (ts : List UInt32) (ns : UInt8)
    (first last : Bytes) (limit : UInt32) (f : FileImpl) : Prop :=
  Lists es ts ns (fun t => first ≤ t && t ≤ last) limit
    (outcome (findRange build [] ns first last limit f))

section Sorted
variable (htitle : SortedBy Dirent.getTitle (byTitle es ts)) (hne : es ≠ [])
  (hurl : SortedBy Dirent.getUrl es) {f : FileImpl} (hf : Looking build a es f) (ns : UInt8)
  (limit : UInt32)
include htitle hne hurl hf

theorem finds_iff (praefix : Bytes) : Finds build es ts ns praefix limit f ↔
    limit = 0 ∨ File.MeetsFirst (byTitle es ts) Dirent.getTitle ns praefix := by
  have hlists := lists_iff hindexed htitle hne (scannable_praefix praefix) ns hurl hf limit
  have hself : praefix.isPrefixOf praefix = true :=
    List.isPrefixOf_iff_prefix.mpr (List.prefix_refl praefix)
  rw [hself] at hlists
  simp only [Bool.true_eq_false, false_or] at hlists
  exact hlists

theorem findsRange_iff (first last : Bytes) : FindsRange build es ts ns first last limit f ↔
    limit = 0 ∨ last < first ∨ File.MeetsFirst (byTitle es ts) Dirent.getTitle ns first := by
  have hlists := lists_iff hindexed htitle hne (scannable_range first last) ns hurl hf limit
  have hself : (decide (first ≤ first) && decide (first ≤ last)) = false ↔ last < first := by
    simp
  rw [hself] at hlists
  exact hlists

end Sorted
end Indexed

/-- Without the order of the titles there are two entries of a namespace in the wrong order, and no
search with both of them lists them in order. -/
theorem exists_not_lists
    (hspaces : (byTitle es ts).Pairwise fun d e =>
      charValue d.getNamespace ≤ charValue e.getNamespace)
    (hnot : ¬ SortedBy Dirent.getTitle (byTitle es ts)) :
    ∃ ns last, ∀ wanted : Bytes → Bool, (∀ t ≤ last, wanted t = true) →
      ∀ limit r, ¬ Lists es ts ns wanted limit r := by
  unfold SortedBy byTitle at hnot
  unfold byTitle at hspaces
  rw [List.pairwise_map, List.pairwise_iff_forall_sublist] at hnot hspaces
  push Not at hnot
  obtain ⟨t, u, hsub, hlt⟩ := hnot
  have hle := hspaces hsub
  change charStringKey (entry es u).getNamespace (entry es u).getTitle <
    charStringKey (entry es t).getNamespace (entry es t).getTitle at hlt
  change charValue (entry es t).getNamespace ≤ charValue (entry es u).getNamespace at hle
  obtain ⟨hns, hlt⟩ := (charStringKey_lt.mp hlt).resolve_left (not_lt.mpr hle)
  refine ⟨(entry es t).getNamespace, (entry es t).getTitle, fun wanted hwanted limit r h => ?_⟩
  have ht : isWanted es (entry es t).getNamespace wanted t = true :=
    isWanted_iff.mpr ⟨rfl, hwanted _ le_rfl⟩
  have hu : isWanted es (entry es t).getNamespace wanted u = true :=
    isWanted_iff.mpr ⟨hns, hwanted _ hlt.le⟩
  have hboth := hsub.filter (isWanted es (entry es t).getNamespace wanted)
  rw [List.filter_cons_of_pos ht, List.filter_cons_of_pos hu, List.filter_nil] at hboth
  exact not_le.mpr hlt (List.pairwise_iff_forall_sublist.mp h.ordered hboth)
end Lists
end Search
end Zim
