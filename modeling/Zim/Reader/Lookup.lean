import Zim.Lib.Bisect
import Zim.Lib.StdSort
import Zim.Reader.Open

/-! Lookups by url and by title: the namespaces of `FileImpl` and the searches of `zim::File`
(file.cpp). -/
namespace Zim
open Cxx Stateful Bisect
namespace FileImpl
variable (build : Build)

def getNamespaceBeginOffset (ch : UInt8) : M UInt32 := do
  match (← get).namespaceBeginCache ch with
  | some ret => return ret
  | none =>
    let d ← getDirent build 0
    let (_, lower, upper) ← bisect (fun m => do
      let d ← getDirent build m
      return if charValue ch ≤ charValue d.getNamespace then .lt else .gt)
      0 (← get).getCountArticles
    let ret := if charValue d.getNamespace < charValue ch then upper else lower
    modify fun f =>
      { f with namespaceBeginCache := Function.update f.namespaceBeginCache ch (some ret) }
    return ret

def getNamespaceEndOffset (ch : UInt8) : M UInt32 := do
  match (← get).namespaceEndCache ch with
  | some ret => return ret
  | none =>
    let (_, _, upper) ← bisect (fun m => do
      let d ← getDirent build m
      return if charValue ch < charValue d.getNamespace then .lt else .gt)
      0 (← get).getCountArticles
    modify fun f =>
      { f with namespaceEndCache := Function.update f.namespaceEndCache ch (some upper) }
    return upper

end FileImpl

namespace File
open FileImpl
variable (build : Build)

/-- The sign of `c` in the loops of the searches. -/
def compare (ns : UInt8) (s : Bytes) (key : Dirent → Bytes) (d : Dirent) : Ordering :=
  if charValue ns < charValue d.getNamespace then .lt
  else if charValue d.getNamespace < charValue ns then .gt
  else stringCompare s (key d)

/-- `findx` and `findxByTitle`, which differ in how an entry is read and in its key. The position
counts in the order of the entries that `read` has. -/
def search (read : UInt32 → M Dirent) (key : Dirent → Bytes) (ns : UInt8) (s : Bytes) :
    M (Bool × UInt32) := do
  let l ← getNamespaceBeginOffset build ns
  let u ← getNamespaceEndOffset build ns
  if l = u then return (false, (← get).getCountArticles)
  else
    let (hit, l, u) ← bisect (fun p => do return compare ns s key (← read p)) l u
    match hit with
    | some p => return (true, p)
    | none =>
      let d ← read l
      -- here the namespace of the entry is not looked at
      return match stringCompare s (key d) with
        | .eq => (true, l)
        | .lt => (false, l)
        | .gt => (false, u)

def findx (ns : UInt8) (url : Bytes) : M (Bool × UInt32) :=
  search build (getDirent build) Dirent.getUrl ns url

def findxByTitle (ns : UInt8) (title : Bytes) : M (Bool × UInt32) :=
  search build (getDirentByTitle build) Dirent.getTitle ns title

end File

variable {build : Build} {a : Archive} {es : List Dirent} {ts : List UInt32}

/-- The entries of an archive in the order of its url pointers and its title index: all of them can
be read, and the title index lists each of them once. -/
structure Archive.Indexed (build : Build) (a : Archive) (es : List Dirent) (ts : List UInt32) :
    Prop where
  count : es.length = a.header.articleCount.toNat
  dirent : ∀ (i : UInt32) (d : Dirent), es[i.toNat]? = some d → a.dirent build i = .ok d
  index : ∀ i t : UInt32, ts[i.toNat]? = some t → a.indexByTitle build i = .ok t
  perm : ts.Perm ((List.range es.length).map UInt32.ofNat)

/-- The entries in the order of the title index. -/
def byTitle (es : List Dirent) (ts : List UInt32) : List Dirent :=
  ts.map fun i => es.getD i.toNat .new

/-- The number of entries in namespaces before `ch`. -/
def namespaceBegin (es : List Dirent) (ch : UInt8) : ℕ :=
  es.countP fun d => charValue d.getNamespace < charValue ch

/-- The number of entries in namespaces up to `ch`. -/
def namespaceEnd (es : List Dirent) (ch : UInt8) : ℕ :=
  es.countP fun d => charValue d.getNamespace ≤ charValue ch

/-- Entries in the order of their namespaces and a key. -/
def SortedBy (key : Dirent → Bytes) (es : List Dirent) : Prop :=
  es.Pairwise fun d d' =>
    charStringKey d.getNamespace (key d) ≤ charStringKey d'.getNamespace (key d')

section Namespaces
variable (ch : UInt8)

theorem SortedBy.namespaces {key : Dirent → Bytes} (h : SortedBy key es) :
    es.Pairwise fun d d' => charValue d.getNamespace ≤ charValue d'.getNamespace :=
  h.imp fun hle => (Prod.Lex.toLex_le_toLex.mp hle).elim le_of_lt fun heq => heq.1.le

variable {key : Dirent → Bytes} (hsorted : SortedBy key es) {i : ℕ} {d : Dirent}
include hsorted

theorem lt_namespaceBegin (hd : es[i]? = some d) :
    i < namespaceBegin es ch ↔ charValue d.getNamespace < charValue ch := by
  have hfront : es.Pairwise fun d d' =>
      decide (charValue d'.getNamespace < charValue ch) = true →
        decide (charValue d.getNamespace < charValue ch) = true :=
    hsorted.namespaces.imp fun hle hlt => by
      simp only [decide_eq_true_eq] at hlt ⊢
      exact hle.trans_lt hlt
  rw [namespaceBegin, lt_countP_iff hfront hd, decide_eq_true_eq]

theorem lt_namespaceEnd (hd : es[i]? = some d) :
    i < namespaceEnd es ch ↔ charValue d.getNamespace ≤ charValue ch := by
  have hfront : es.Pairwise fun d d' =>
      decide (charValue d'.getNamespace ≤ charValue ch) = true →
        decide (charValue d.getNamespace ≤ charValue ch) = true :=
    hsorted.namespaces.imp fun hle hle' => by
      simp only [decide_eq_true_eq] at hle' ⊢
      exact hle.trans hle'
  rw [namespaceEnd, lt_countP_iff hfront hd, decide_eq_true_eq]

omit hsorted in
theorem namespaceBegin_le_end : namespaceBegin es ch ≤ namespaceEnd es ch :=
  List.countP_mono_left fun d _ hlt => by
    simp only [decide_eq_true_eq] at hlt ⊢
    exact hlt.le

end Namespaces

namespace FileImpl

/-- The offsets that the caches of the namespaces hold. Searching an archive without entries caches
no begin of a namespace, and the end of a namespace is never searched at the first entry. -/
structure Coherent (es : List Dirent) (f : FileImpl) : Prop where
  begins : ∀ ch ret, f.namespaceBeginCache ch = some ret →
    es ≠ [] ∧ ret.toNat = namespaceBegin es ch
  ends : ∀ ch ret, f.namespaceEndCache ch = some ret →
    es ≠ [] → ret.toNat = max 1 (namespaceEnd es ch)

section Preserves
variable {I : FileImpl → Prop} (hI : ∀ f zimFile direntCache, I f → I { f with
  zimFile := zimFile, direntCache := direntCache })
include hI

/-- Reading an entry changes the stream and the cache of the entries only. -/
theorem readDirent_preserves (idx : UInt32) : Preserves I (readDirent build idx) := by
  have hstream (f : FileImpl) (s : IStream) (hf : I f) : I (f.withStream s) := hI f _ _ hf
  refine .bind .get fun _ => .bind (getOffset_preserves hstream _ _) fun _ =>
    .bind (seekg_preserves hstream _) fun _ => .bind failed_preserves fun _ =>
    .ite (.throw_bind _) (.bind (extract_preserves hstream _) fun _ =>
      .bind failed_preserves fun _ => .ite (.throw_bind _) (.bind ?_ fun _ => .pure _))
  exact .modify fun f hf => hI f _ _ hf

theorem getDirent_preserves (idx : UInt32) : Preserves I (getDirent build idx) := by
  have hbufsize : Preserves I (setBufsize 64) := .modify fun f hf => hI f _ _ hf
  refine .bind hbufsize fun _ => .bind .get fun _ => .ite (.throw_bind _) (.bind failed_preserves
    fun _ => .ite (.throw_bind _) (.bind (.modifyGet fun f hf => hI f _ _ hf) fun v => ?_))
  cases v with
  | some dirent => exact .pure _
  | none => exact readDirent_preserves hI idx

theorem getIndexByTitle_preserves (idx : UInt32) : Preserves I (getIndexByTitle build idx) := by
  have hstream (f : FileImpl) (s : IStream) (hf : I f) : I (f.withStream s) := hI f _ _ hf
  exact .bind .get fun _ => .ite (.throw_bind _) (.bind .get fun _ =>
    .bind (seekg_preserves hstream _) fun _ => .bind (extract_preserves hstream _) fun _ =>
    .bind failed_preserves fun _ => .ite (.throw_bind _) (.pure _))

theorem getDirentByTitle_preserves (idx : UInt32) : Preserves I (getDirentByTitle build idx) :=
  .bind .get fun _ => .ite (.throw_bind _) (.bind (getIndexByTitle_preserves hI idx) fun _ =>
    getDirent_preserves hI _)

end Preserves

theorem getDirent_coherent (idx : UInt32) : Preserves (Coherent es) (getDirent build idx) :=
  getDirent_preserves (fun _ _ _ h => ⟨h.1, h.2⟩) idx

theorem getIndexByTitle_coherent (idx : UInt32) :
    Preserves (Coherent es) (getIndexByTitle build idx) :=
  getIndexByTitle_preserves (fun _ _ _ h => ⟨h.1, h.2⟩) idx

theorem getDirentByTitle_coherent (idx : UInt32) :
    Preserves (Coherent es) (getDirentByTitle build idx) :=
  getDirentByTitle_preserves (fun _ _ _ h => ⟨h.1, h.2⟩) idx

/-- An object that has only been used for lookups in the archive `a`. -/
def Looking (build : Build) (a : Archive) (es : List Dirent) (f : FileImpl) : Prop :=
  Serves build a false f ∧ Coherent es f

theorem getDirent_looking {i : UInt32} {d : Dirent} (h : a.dirent build i = .ok d) :
    Runs (Looking build a es) (getDirent build i) (.ok d) (Looking build a es) := by
  have hruns := @getDirent_runs build a i
  rw [h] at hruns
  exact hruns.and (getDirent_coherent i)

theorem getDirentByTitle_looking {i : UInt32} {d : Dirent} (h : a.direntByTitle build i = .ok d) :
    Runs (Looking build a es) (getDirentByTitle build i) (.ok d) (Looking build a es) := by
  have hruns := @getDirentByTitle_runs build a i
  rw [h] at hruns
  exact hruns.and (getDirentByTitle_coherent i)

/-- The first entry and its place. -/
theorem getElem?_first (hne : es ≠ []) : es[0]? = some (es.getD 0 .new) := by
  have hlt := List.length_pos_iff.mpr hne
  rw [List.getElem?_eq_getElem hlt, List.getD_eq_getElem _ _ hlt]

/-- The caches of the namespaces have no part in what an object reads. -/
theorem Serves.setCaches {fail : Bool} {f : FileImpl} (h : Serves build a fail f)
    (begins ends : UInt8 → Option UInt32) (namespaces : Bytes) :
    Serves build a fail { f with
      namespaceBeginCache := begins, namespaceEndCache := ends, namespaces := namespaces } := by
  obtain ⟨s, hs, hholds⟩ := h
  exact ⟨s, hs, hholds.stream, hholds.archive, hholds.header, hholds.mimeTypes,
    hholds.dirents, hholds.clusters⟩

/-- What holds of all that is cached holds behind an update with a value of which it holds. -/
theorem update_cached {cache : UInt8 → Option UInt32} {R : UInt8 → UInt32 → Prop}
    (h : ∀ ch ret, cache ch = some ret → R ch ret) {ch : UInt8} {ret : UInt32} (hret : R ch ret)
    (ch' ret') (hcache : Function.update cache ch (some ret) ch' = some ret') : R ch' ret' := by
  by_cases hch : ch' = ch
  · subst hch
    rw [Function.update_self, Option.some_inj] at hcache
    exact hcache ▸ hret
  · rw [Function.update_of_ne hch] at hcache
    exact h ch' ret' hcache

/-- An offset found for a namespace is kept. -/
theorem Looking.setBegin {f : FileImpl} (h : Looking build a es f) (hne : es ≠ []) {ch : UInt8}
    {ret : UInt32} (hret : ret.toNat = namespaceBegin es ch) :
    Looking build a es { f with
      namespaceBeginCache := Function.update f.namespaceBeginCache ch (some ret) } := by
  constructor
  · exact h.1.setCaches _ f.namespaceEndCache f.namespaces
  · exact ⟨update_cached h.2.begins ⟨hne, hret⟩, h.2.ends⟩

theorem Looking.setEnd {f : FileImpl} (h : Looking build a es f) {ch : UInt8} {ret : UInt32}
    (hret : es ≠ [] → ret.toNat = max 1 (namespaceEnd es ch)) :
    Looking build a es { f with
      namespaceEndCache := Function.update f.namespaceEndCache ch (some ret) } := by
  constructor
  · exact h.1.setCaches f.namespaceBeginCache _ f.namespaces
  · exact ⟨h.2.begins, update_cached h.2.ends hret⟩

section Searches
variable (es) (ch : UInt8)

def beginSide (m : UInt32) : Ordering :=
  if charValue ch ≤ charValue (es.getD m.toNat .new).getNamespace then .lt else .gt

def endSide (m : UInt32) : Ordering :=
  if charValue ch < charValue (es.getD m.toNat .new).getNamespace then .lt else .gt

/-- What the search for the begin of a namespace finds, whatever the order of the entries. -/
def searchedBegin : UInt32 :=
  let (_, lower, upper) := bisect (m := Id) (beginSide es ch) 0 (UInt32.ofNat es.length)
  if charValue (es.getD 0 .new).getNamespace < charValue ch then upper else lower

/-- What the search for the end of a namespace finds, whatever the order of the entries. -/
def searchedEnd : UInt32 :=
  (bisect (m := Id) (endSide es ch) 0 (UInt32.ofNat es.length)).2.2

variable {es ch} {P : FileImpl → Prop} (hpos : 0 < UInt32.ofNat es.length)
  (hcount : ∀ f, P f → f.getCountArticles = UInt32.ofNat es.length)
  (hget : ∀ p < UInt32.ofNat es.length,
    Runs P (getDirent build p) (.ok (es.getD p.toNat .new)) P)
include hpos hcount hget

theorem getNamespaceBeginOffset_searches
    (hcache : ∀ f ret, P f → f.namespaceBeginCache ch = some ret → ret = searchedBegin es ch)
    (hset : ∀ f, P f → P { f with
      namespaceBeginCache :=
        Function.update f.namespaceBeginCache ch (some (searchedBegin es ch)) }) :
    Runs P (getNamespaceBeginOffset build ch) (.ok (searchedBegin es ch)) P := by
  refine .get_bind fun f hf => ?_
  cases hc : f.namespaceBeginCache ch with
  | some ret =>
    rw [hcache f ret hf hc]
    exact .pure fun _ h => h
  | none =>
    have hbisect := @bisect_runs _ _ P (fun m => do
      let d ← getDirent build m
      return if charValue ch ≤ charValue d.getNamespace then .lt else .gt) (beginSide es ch)
        0 _ hpos fun p _ hp => (hget p hp).bind (.pure fun _ h => h)
    refine (hget 0 hpos).bind (.get_bind fun f hf => ?_)
    rw [hcount f hf]
    exact hbisect.bind ((Runs.modify hset).bind (.pure fun _ h => h))

theorem getNamespaceEndOffset_searches
    (hcache : ∀ f ret, P f → f.namespaceEndCache ch = some ret → ret = searchedEnd es ch)
    (hset : ∀ f, P f → P { f with
      namespaceEndCache := Function.update f.namespaceEndCache ch (some (searchedEnd es ch)) }) :
    Runs P (getNamespaceEndOffset build ch) (.ok (searchedEnd es ch)) P := by
  refine .get_bind fun f hf => ?_
  cases hc : f.namespaceEndCache ch with
  | some ret =>
    rw [hcache f ret hf hc]
    exact .pure fun _ h => h
  | none =>
    have hbisect := @bisect_runs _ _ P (fun m => do
      let d ← getDirent build m
      return if charValue ch < charValue d.getNamespace then .lt else .gt) (endSide es ch)
        0 _ hpos fun p _ hp => (hget p hp).bind (.pure fun _ h => h)
    refine .get_bind fun f hf => ?_
    rw [hcount f hf]
    exact hbisect.bind ((Runs.modify hset).bind (.pure fun _ h => h))

end Searches

section Sorted
variable {key : Dirent → Bytes} {ch : UInt8} {p : UInt32} (hlen : es.length < 2 ^ 32)
include hlen

theorem ofNat_length_toNat : (UInt32.ofNat es.length).toNat = es.length :=
  UInt32.toNat_ofNat_of_lt' hlen

theorem ofNat_length_pos (hne : es ≠ []) : 0 < UInt32.ofNat es.length := by
  rw [UInt32.lt_iff_toNat_lt, ofNat_length_toNat hlen]
  exact List.length_pos_iff.mpr hne

theorem getElem?_lt (hp : p < UInt32.ofNat es.length) :
    es[p.toNat]? = some (es.getD p.toNat .new) := by
  rw [UInt32.lt_iff_toNat_lt, ofNat_length_toNat hlen] at hp
  rw [List.getElem?_eq_getElem hp, List.getD_eq_getElem _ _ hp]

variable (hsorted : SortedBy key es) (hne : es ≠ [])
include hsorted hne

/-- In entries in order the search for the begin of a namespace finds it. -/
theorem searchedBegin_toNat : (searchedBegin es ch).toNat = namespaceBegin es ch := by
  have hside : ∀ p < UInt32.ofNat es.length,
      beginSide es ch p = if p.toNat < namespaceBegin es ch then .gt else .lt := by
    intro p hp
    have hbegin := lt_namespaceBegin ch hsorted (getElem?_lt hlen hp)
    simp only [beginSide, hbegin]
    by_cases hlt : charValue (es.getD p.toNat .new).getNamespace < charValue ch
    · rw [if_neg (not_le.mpr hlt), if_pos hlt]
    · rw [if_pos (not_lt.mp hlt), if_neg hlt]
  have hle : namespaceBegin es ch ≤ (UInt32.ofNat es.length).toNat := by
    rw [ofNat_length_toNat hlen]
    exact List.countP_le_length
  have hcut := (bisect_ends (beginSide es ch) (ofNat_length_pos hlen hne)).cut hle hside
  have hfirst := lt_namespaceBegin ch hsorted (getElem?_first hne)
  unfold searchedBegin
  generalize bisect (m := Id) (beginSide es ch) 0 (UInt32.ofNat es.length) = r at hcut ⊢
  obtain ⟨hit, lower, upper⟩ := r
  simp only at hcut ⊢
  split_ifs with hlt
  · exact hcut.1.trans (max_eq_right (hfirst.mpr hlt))
  · have hzero : namespaceBegin es ch = 0 := Nat.eq_zero_of_not_pos (mt hfirst.mp hlt)
    rw [hzero] at hcut ⊢
    exact hcut.2

theorem searchedEnd_toNat : (searchedEnd es ch).toNat = max 1 (namespaceEnd es ch) := by
  have hside : ∀ p < UInt32.ofNat es.length,
      endSide es ch p = if p.toNat < namespaceEnd es ch then .gt else .lt := by
    intro p hp
    have hend := lt_namespaceEnd ch hsorted (getElem?_lt hlen hp)
    simp only [endSide, hend]
    by_cases hlt : charValue ch < charValue (es.getD p.toNat .new).getNamespace
    · rw [if_pos hlt, if_neg (not_le.mpr hlt)]
    · rw [if_neg hlt, if_pos (not_lt.mp hlt)]
  have hle : namespaceEnd es ch ≤ (UInt32.ofNat es.length).toNat := by
    rw [ofNat_length_toNat hlen]
    exact List.countP_le_length
  exact ((bisect_ends (endSide es ch) (ofNat_length_pos hlen hne)).cut hle hside).1

end Sorted

/-- The end of a namespace as it is found, which is never below 1. -/
def foundEnd (es : List Dirent) (ch : UInt8) : UInt32 := UInt32.ofNat (max 1 (namespaceEnd es ch))

section Offsets
variable {key : Dirent → Bytes} (hindexed : a.Indexed build es ts) (hsorted : SortedBy key es)
include hindexed

theorem getElem?_index {p : UInt32} (hp : p < a.header.articleCount) :
    es[p.toNat]? = some (es.getD p.toNat .new) := by
  have hlt : p.toNat < es.length := by
    rw [hindexed.count]
    exact UInt32.lt_iff_toNat_lt.mp hp
  rw [List.getElem?_eq_getElem hlt, List.getD_eq_getElem _ _ hlt]

theorem ofNat_length : UInt32.ofNat es.length = a.header.articleCount := by
  rw [hindexed.count, UInt32.ofNat_toNat]

theorem length_lt : es.length < 2 ^ 32 := by
  rw [hindexed.count]
  exact UInt32.toNat_lt _

theorem namespaceBegin_le_count {ch : UInt8} :
    namespaceBegin es ch ≤ a.header.articleCount.toNat := by
  rw [← hindexed.count]
  exact List.countP_le_length

theorem namespaceEnd_le_count (ch : UInt8) :
    namespaceEnd es ch ≤ a.header.articleCount.toNat := by
  rw [← hindexed.count]
  exact List.countP_le_length

theorem getDirent_index (p : UInt32) (hp : p < a.header.articleCount) :
    Runs (Looking build a es) (getDirent build p) (.ok (es.getD p.toNat .new))
      (Looking build a es) :=
  getDirent_looking (hindexed.dirent p _ (getElem?_index hindexed hp))

theorem namespaceBegin_toNat (ch : UInt8) :
    (UInt32.ofNat (namespaceBegin es ch)).toNat = namespaceBegin es ch :=
  UInt32.toNat_ofNat_of_lt' ((namespaceBegin_le_count hindexed).trans_lt (UInt32.toNat_lt _))

theorem foundEnd_toNat (ch : UInt8) :
    (foundEnd es ch).toNat = max 1 (namespaceEnd es ch) := by
  have hend := namespaceEnd_le_count hindexed ch
  have hcount := UInt32.toNat_lt a.header.articleCount
  exact UInt32.toNat_ofNat_of_lt' (max_lt (by decide) (hend.trans_lt hcount))

theorem count_pos (hne : es ≠ []) : 0 < a.header.articleCount := by
  rw [UInt32.lt_iff_toNat_lt, ← hindexed.count]
  exact List.length_pos_iff.mpr hne

theorem foundEnd_le_count (hne : es ≠ []) (ch : UInt8) :
    foundEnd es ch ≤ a.header.articleCount := by
  have hpos := UInt32.lt_iff_toNat_lt.mp (count_pos hindexed hne)
  rw [UInt32.le_iff_toNat_le, foundEnd_toNat hindexed]
  exact max_le hpos (namespaceEnd_le_count hindexed ch)

theorem namespaceBegin_lt_foundEnd {ch : UInt8}
    (h : ¬ UInt32.ofNat (namespaceBegin es ch) = foundEnd es ch) :
    UInt32.ofNat (namespaceBegin es ch) < foundEnd es ch := by
  have hle := @namespaceBegin_le_end es ch
  rw [← UInt32.toNat_inj, namespaceBegin_toNat hindexed, foundEnd_toNat hindexed] at h
  rw [UInt32.lt_iff_toNat_lt, namespaceBegin_toNat hindexed, foundEnd_toNat hindexed]
  omega

include hsorted

theorem getNamespaceBeginOffset_runs (hne : es ≠ []) (ch : UInt8) :
    Runs (Looking build a es) (getNamespaceBeginOffset build ch)
      (.ok (UInt32.ofNat (namespaceBegin es ch))) (Looking build a es) := by
  have hcount := ofNat_length hindexed
  have heq : searchedBegin es ch = UInt32.ofNat (namespaceBegin es ch) := by
    rw [← searchedBegin_toNat (length_lt hindexed) hsorted hne, UInt32.ofNat_toNat]
  rw [← heq]
  refine getNamespaceBeginOffset_searches (hcount ▸ count_pos hindexed hne)
    (fun f hf => ?_) (fun p hp => getDirent_index hindexed p (hcount ▸ hp))
    (fun f ret hf hcache => ?_) (fun f hf => ?_)
  · rw [getCountArticles, hf.1.header, hcount]
  · obtain ⟨-, hret⟩ := hf.2.begins ch ret hcache
    rw [heq, ← hret, UInt32.ofNat_toNat]
  · exact hf.setBegin hne (heq ▸ namespaceBegin_toNat hindexed ch)

theorem getNamespaceEndOffset_runs (hne : es ≠ []) (ch : UInt8) :
    Runs (Looking build a es) (getNamespaceEndOffset build ch) (.ok (foundEnd es ch))
      (Looking build a es) := by
  have hcount := ofNat_length hindexed
  have heq : searchedEnd es ch = foundEnd es ch := by
    rw [foundEnd, ← searchedEnd_toNat (length_lt hindexed) hsorted hne, UInt32.ofNat_toNat]
  rw [← heq]
  refine getNamespaceEndOffset_searches (hcount ▸ count_pos hindexed hne)
    (fun f hf => ?_) (fun p hp => getDirent_index hindexed p (hcount ▸ hp))
    (fun f ret hf hcache => ?_) (fun f hf => ?_)
  · rw [getCountArticles, hf.1.header, hcount]
  · rw [heq, foundEnd, ← hf.2.ends ch ret hcache hne, UInt32.ofNat_toNat]
  · exact hf.setEnd fun _ => heq ▸ foundEnd_toNat hindexed ch

omit hsorted in
/-- Without entries there is no first one to start from. -/
theorem getNamespaceBeginOffset_empty (hnil : es = []) (ch : UInt8) :
    Runs (Looking build a es) (getNamespaceBeginOffset build ch)
      (.error (.format "article index out of range")) (Looking build a es) := by
  refine .get_bind fun f hf => ?_
  have hcache : f.namespaceBeginCache ch = none := by
    cases hcache : f.namespaceBeginCache ch with
    | none => rfl
    | some ret => exact absurd hnil (hf.2.begins ch ret hcache).1
  have hcount : a.header.articleCount ≤ 0 := by
    rw [UInt32.le_iff_toNat_le, ← hindexed.count, hnil]
    exact Nat.zero_le _
  have hruns := @getDirent_runs build a 0
  rw [Archive.dirent, if_pos hcount] at hruns
  rw [hcache]
  exact (hruns.and (getDirent_coherent 0)).bind_error

end Offsets

end FileImpl

namespace File
open FileImpl

/-- What a search between two positions finds in the entries in their order. -/
def found (order : List Dirent) (key : Dirent → Bytes) (l u : UInt32) (ns : UInt8) (s : Bytes) :
    Bool × UInt32 :=
  if l = u then (false, UInt32.ofNat order.length)
  else
    let (hit, l, u) :=
      bisect (m := Id) (fun p => compare ns s key (order.getD p.toNat .new)) l u
    match hit with
    | some p => (true, p)
    | none =>
      match stringCompare s (key (order.getD l.toNat .new)) with
      | .eq => (true, l)
      | .lt => (false, l)
      | .gt => (false, u)

section Search
variable {order : List Dirent} {key : Dirent → Bytes} {read : UInt32 → M Dirent}
  (hindexed : a.Indexed build es ts) (hsorted : SortedBy Dirent.getUrl es)
include hindexed

theorem search_empty (hnil : es = []) (ns : UInt8) (s : Bytes) :
    Runs (Looking build a es) (search build read key ns s)
      (.error (.format "article index out of range")) (Looking build a es) :=
  (getNamespaceBeginOffset_empty hindexed hnil ns).bind_error

include hsorted

theorem search_runs (hne : es ≠ []) (hlen : order.length = es.length)
    (hread : ∀ p < a.header.articleCount,
      Runs (Looking build a es) (read p) (.ok (order.getD p.toNat .new)) (Looking build a es))
    (ns : UInt8) (s : Bytes) :
    Runs (Looking build a es) (search build read key ns s)
      (.ok (found order key (UInt32.ofNat (namespaceBegin es ns)) (foundEnd es ns) ns s))
      (Looking build a es) := by
  refine (getNamespaceBeginOffset_runs hindexed hsorted hne ns).bind
    ((getNamespaceEndOffset_runs hindexed hsorted hne ns).bind ?_)
  unfold found
  split_ifs with heq
  · refine .get_bind fun f hf => ?_
    rw [getCountArticles, hf.1.header, hlen, hindexed.count, UInt32.ofNat_toNat]
    exact .pure fun _ h => h
  · have hlt := namespaceBegin_lt_foundEnd hindexed heq
    have hle := foundEnd_le_count hindexed hne ns
    have hbisect := @bisect_runs _ _ (Looking build a es)
      (fun p => do return compare ns s key (← read p))
      (fun p => compare ns s key (order.getD p.toNat .new)) _ _ hlt fun p _ hp =>
        (hread p (UInt32.lt_of_lt_of_le hp hle)).bind (.pure fun _ h => h)
    apply hbisect.bind
    have hends := bisect_ends (fun p => compare ns s key (order.getD p.toNat .new)) hlt
    generalize bisect (m := Id) (fun p => compare ns s key (order.getD p.toNat .new)) _ _ = r
      at hends ⊢
    obtain ⟨hit, l, u⟩ := r
    cases hit with
    | some p => exact .pure fun _ h => h
    | none =>
      have hl : l < a.header.articleCount :=
        UInt32.lt_of_lt_of_le hends.lt (UInt32.le_trans hends.upper hle)
      apply (hread l hl).bind
      simp only
      cases stringCompare s (key (order.getD l.toNat .new)) <;> exact .pure fun _ h => h

end Search
end File
end Zim
