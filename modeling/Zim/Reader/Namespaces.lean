import Mathlib.Data.List.Chain
import Zim.Reader.LookupLaw

/-! The namespaces of an archive: where each of them lies, and which there are (fileimpl.h,
fileimpl.cpp). -/
namespace Zim
open Cxx Stateful Bisect
namespace FileImpl

section Operations
variable (build : Build)

def getNamespaceCount (ns : UInt8) : M UInt32 := do
  let last ← getNamespaceEndOffset build ns
  let first ← getNamespaceBeginOffset build ns
  return last - first

/-- The turns of the loop of `getNamespaces`, and whether they were enough to end it. -/
def namespacesLoop : ℕ → Dirent → M Bool
  | 0, _ => return false
  | turns + 1, d => do
    let idx ← getNamespaceEndOffset build d.getNamespace
    if idx < (← get).getCountArticles then
      let d ← getDirent build idx
      modify fun f => { f with namespaces := f.namespaces ++ [d.getNamespace] }
      namespacesLoop turns d
    else return true

/-- `getNamespaces()`, or nothing where the loop has not ended after the given turns. -/
def getNamespaces (turns : ℕ) : M (Option Bytes) := do
  if (← get).namespaces = [] then
    let d ← getDirent build 0
    modify fun f => { f with namespaces := [d.getNamespace] }
    if !(← namespacesLoop build turns d) then return none
  return some (← get).namespaces

end Operations
end FileImpl

variable {build : Build} {a : Archive} {es : List Dirent}

/-- The entries of an archive in the order of its url pointers: all of them can be read. -/
structure Archive.Readable (build : Build) (a : Archive) (es : List Dirent) : Prop where
  count : es.length = a.header.articleCount.toNat
  dirent : ∀ (i : UInt32) (d : Dirent), es[i.toNat]? = some d → a.dirent build i = .ok d

theorem Archive.Readable.length_lt (h : Archive.Readable build a es) : es.length < 2 ^ 32 := by
  rw [h.count]
  exact UInt32.toNat_lt _

/-- The number of entries in namespace `ch`. -/
def namespaceCount (es : List Dirent) (ch : UInt8) : ℕ := es.countP fun d => d.getNamespace = ch

/-- Entries in the order of their namespaces. -/
def SortedByNamespace (es : List Dirent) : Prop :=
  es.Pairwise fun d d' => charValue d.getNamespace ≤ charValue d'.getNamespace

/-- Entries in the order of their namespaces are so with any constant for a key. -/
theorem SortedByNamespace.sortedBy (h : SortedByNamespace es) : SortedBy (fun _ => []) es := by
  apply List.Pairwise.imp _ h
  intro d d' hle
  rw [charStringKey, charStringKey, Prod.Lex.toLex_le_toLex]
  rcases hle.lt_or_eq with hlt | heq
  · exact .inl hlt
  · exact .inr ⟨heq, le_rfl⟩

theorem SortedByNamespace.first_le (h : SortedByNamespace es) {d : Dirent} (hd : d ∈ es) :
    charValue (es.getD 0 .new).getNamespace ≤ charValue d.getNamespace := by
  cases es with
  | nil => cases hd
  | cons d₀ es =>
    rcases List.mem_cons.mp hd with rfl | hmem
    · exact le_rfl
    · exact (List.pairwise_cons.mp h).1 d hmem

theorem namespaceEnd_eq_add (es : List Dirent) (ch : UInt8) :
    namespaceEnd es ch = namespaceBegin es ch + namespaceCount es ch := by
  unfold namespaceEnd namespaceBegin namespaceCount
  induction es with
  | nil => rfl
  | cons d es ih =>
    rw [List.countP_cons, List.countP_cons, List.countP_cons, ih]
    simp only [decide_eq_true_eq, ← charValue_injective.eq_iff, le_iff_lt_or_eq]
    split_ifs <;> omega

namespace FileImpl

section Walk
variable (es) (ch : UInt8)

/-- The namespace behind `ch`, as the loop finds it. -/
def nextNamespace : Option UInt8 :=
  if searchedEnd es ch < UInt32.ofNat es.length then
    some (es.getD (searchedEnd es ch).toNat .new).getNamespace
  else none

/-- The namespaces that the loop comes to behind `ch`. -/
def namespacesFrom : ℕ → UInt8 → Bytes
  | 0, _ => []
  | turns + 1, ch =>
    match nextNamespace es ch with
    | none => []
    | some next => next :: namespacesFrom turns next

/-- How many characters there are behind `ch`. -/
def room : ℕ := (127 - charValue ch).toNat

variable {es ch} {next : UInt8}

theorem charValue_le (ch : UInt8) : charValue ch ≤ 127 := by
  have h := ch.toInt8.toInt_lt
  unfold charValue
  omega

theorem room_lt (ch : UInt8) : room ch < 256 := by
  have h := ch.toInt8.le_toInt
  unfold room charValue
  omega

/-- The search ends at an entry behind `ch` or behind all entries, in whatever order they are. -/
theorem charValue_lt_of_next (hpos : 0 < UInt32.ofNat es.length)
    (h : nextNamespace es ch = some next) : charValue ch < charValue next := by
  unfold nextNamespace at h
  split_ifs at h with hlt
  cases h
  have hends : searchedEnd es ch = UInt32.ofNat es.length ∨
      endSide es ch (searchedEnd es ch) = .lt := (bisect_ends (endSide es ch) hpos).fromUpper
  rcases hends with heq | hside
  · exact absurd (heq ▸ hlt) (UInt32.lt_irrefl _)
  · by_contra hle
    rw [endSide, if_neg hle] at hside
    cases hside

theorem room_of_next (hpos : 0 < UInt32.ofNat es.length) (h : nextNamespace es ch = some next) :
    room next < room ch := by
  have hlt := charValue_lt_of_next hpos h
  have hle := charValue_le next
  unfold room
  omega

/-- Turns that the characters behind `ch` cannot use up are as good as any number of them. -/
theorem namespacesFrom_stable (hpos : 0 < UInt32.ofNat es.length) {turns turns' : ℕ}
    (h : room ch < turns) (h' : room ch < turns') :
    namespacesFrom es turns ch = namespacesFrom es turns' ch := by
  induction turns generalizing ch turns' with
  | zero => omega
  | succ turns ih =>
    obtain ⟨turns', rfl⟩ := Nat.exists_eq_succ_of_ne_zero (Nat.ne_of_gt (Nat.zero_lt_of_lt h'))
    unfold namespacesFrom
    cases hnext : nextNamespace es ch with
    | none => rfl
    | some next =>
      have hroom := room_of_next hpos hnext
      exact congrArg (next :: ·) (ih (by omega) (by omega))

theorem namespacesFrom_chain (hpos : 0 < UInt32.ofNat es.length) (turns : ℕ) (ch : UInt8) :
    (ch :: namespacesFrom es turns ch).IsChain fun c c' => charValue c < charValue c' := by
  induction turns generalizing ch with
  | zero => exact .singleton _
  | succ turns ih =>
    unfold namespacesFrom
    cases hnext : nextNamespace es ch with
    | none => exact .singleton _
    | some next => exact .cons_cons (charValue_lt_of_next hpos hnext) (ih next)

variable (hlen : es.length < 2 ^ 32)
include hlen

theorem mem_of_next (h : nextNamespace es ch = some next) : ∃ d ∈ es, d.getNamespace = next := by
  unfold nextNamespace at h
  split_ifs at h with hlt
  cases h
  exact ⟨_, List.mem_of_getElem? (getElem?_lt hlen hlt), rfl⟩

theorem mem_of_mem_namespacesFrom {turns : ℕ} {c : UInt8} (h : c ∈ namespacesFrom es turns ch) :
    ∃ d ∈ es, d.getNamespace = c := by
  induction turns generalizing ch with
  | zero => cases h
  | succ turns ih =>
    unfold namespacesFrom at h
    cases hnext : nextNamespace es ch with
    | none => simp [hnext] at h
    | some next =>
      simp only [hnext] at h
      rcases List.mem_cons.mp h with rfl | hmem
      · exact mem_of_next hlen hnext
      · exact ih hmem

variable (hsorted : SortedByNamespace es)
include hsorted

/-- In entries in order the loop comes to the next one of the namespaces. -/
theorem next_of_lt (hch : ∃ d ∈ es, d.getNamespace = ch) {d : Dirent} (hd : d ∈ es)
    (hlt : charValue ch < charValue d.getNamespace) :
    ∃ next, nextNamespace es ch = some next ∧ charValue next ≤ charValue d.getNamespace := by
  have hne := List.ne_nil_of_mem hd
  have hkey := hsorted.sortedBy
  obtain ⟨d₀, hd₀, hns⟩ := hch
  obtain ⟨i₀, hi₀⟩ := List.getElem?_of_mem hd₀
  obtain ⟨i, hi⟩ := List.getElem?_of_mem hd
  have hpresent := (lt_namespaceEnd ch hkey hi₀).mpr (le_of_eq (congrArg charValue hns))
  have hbehind := mt (lt_namespaceEnd ch hkey hi).mp (not_le.mpr hlt)
  have hend : (searchedEnd es ch).toNat = namespaceEnd es ch := by
    rw [searchedEnd_toNat hlen hkey hne]
    omega
  have hilen := (List.getElem?_eq_some_iff.mp hi).1
  have hidx : searchedEnd es ch < UInt32.ofNat es.length := by
    rw [UInt32.lt_iff_toNat_lt, ofNat_length_toNat hlen, hend]
    omega
  refine ⟨_, if_pos hidx, ?_⟩
  obtain ⟨hj, hnext⟩ := List.getElem?_eq_some_iff.mp (getElem?_lt hlen hidx)
  obtain ⟨hi', rfl⟩ := List.getElem?_eq_some_iff.mp hi
  rw [← hnext]
  rcases Nat.lt_or_ge (searchedEnd es ch).toNat i with hlt' | hge
  · exact List.pairwise_iff_getElem.mp hsorted _ _ hj hi' hlt'
  · have heq : (searchedEnd es ch).toNat = i := by omega
    simp only [heq, le_refl]

theorem mem_namespacesFrom {turns : ℕ} (hroom : room ch < turns)
    (hch : ∃ d ∈ es, d.getNamespace = ch) {d : Dirent} (hd : d ∈ es)
    (hlt : charValue ch < charValue d.getNamespace) :
    d.getNamespace ∈ namespacesFrom es turns ch := by
  induction turns generalizing ch with
  | zero => omega
  | succ turns ih =>
    obtain ⟨next, hnext, hle⟩ := next_of_lt hlen hsorted hch hd hlt
    have hless := room_of_next (ofNat_length_pos hlen (List.ne_nil_of_mem hd)) hnext
    unfold namespacesFrom
    simp only [hnext, List.mem_cons]
    rcases hle.lt_or_eq with hlt' | heq
    · exact .inr (ih (by omega) (mem_of_next hlen hnext) hlt')
    · exact .inl (charValue_injective heq.symm)

end Walk

/-- What `getNamespaces` returns. -/
def namespacesOf (es : List Dirent) : Bytes :=
  (es.getD 0 .new).getNamespace :: namespacesFrom es 256 (es.getD 0 .new).getNamespace

section Namespaces
variable (hlen : es.length < 2 ^ 32) (hne : es ≠ [])
include hlen hne

theorem namespacesOf_pairwise :
    (namespacesOf es).Pairwise fun c c' => charValue c < charValue c' := by
  have hchain := namespacesFrom_chain (ofNat_length_pos hlen hne) 256 (es.getD 0 .new).getNamespace
  have htrans : Trans (fun c c' : UInt8 => charValue c < charValue c')
      (fun c c' => charValue c < charValue c') (fun c c' => charValue c < charValue c') :=
    ⟨lt_trans⟩
  exact hchain.pairwise

theorem mem_namespacesOf (hsorted : SortedByNamespace es) (ch : UInt8) :
    ch ∈ namespacesOf es ↔ ∃ d ∈ es, d.getNamespace = ch := by
  have hfirst := List.mem_of_getElem? (getElem?_first hne)
  constructor
  · intro h
    rcases List.mem_cons.mp h with rfl | hmem
    · exact ⟨_, hfirst, rfl⟩
    · exact mem_of_mem_namespacesFrom hlen hmem
  · rintro ⟨d, hd, rfl⟩
    apply List.mem_cons.mpr
    rcases (hsorted.first_le hd).lt_or_eq with hlt | heq
    · exact .inr (mem_namespacesFrom hlen hsorted (room_lt _) ⟨_, hfirst, rfl⟩ hd hlt)
    · exact .inl (charValue_injective heq.symm)

end Namespaces

/-- The caches of the namespaces hold what the searches find. -/
structure Scanned (es : List Dirent) (f : FileImpl) : Prop where
  begins : ∀ ch ret, f.namespaceBeginCache ch = some ret → ret = searchedBegin es ch
  ends : ∀ ch ret, f.namespaceEndCache ch = some ret → ret = searchedEnd es ch

/-- An object that has only been used for its namespaces and its entries, with the namespaces
enumerated so far. -/
structure Scanning (build : Build) (a : Archive) (es : List Dirent) (ns : Bytes) (f : FileImpl) :
    Prop where
  serves : Serves build a false f
  scanned : Scanned es f
  namespaces : f.namespaces = ns

section Scanning
variable {ns : Bytes}

theorem Scanning.setNamespaces {f : FileImpl} (h : Scanning build a es ns f) (ns' : Bytes) :
    Scanning build a es ns' { f with namespaces := ns' } where
  serves := h.serves.setCaches f.namespaceBeginCache f.namespaceEndCache ns'
  scanned := ⟨h.scanned.begins, h.scanned.ends⟩
  namespaces := rfl

theorem Scanning.setBegin {f : FileImpl} (h : Scanning build a es ns f) (ch : UInt8) :
    Scanning build a es ns { f with
      namespaceBeginCache :=
        Function.update f.namespaceBeginCache ch (some (searchedBegin es ch)) } where
  serves := h.serves.setCaches _ f.namespaceEndCache f.namespaces
  scanned := ⟨update_cached h.scanned.begins rfl, h.scanned.ends⟩
  namespaces := h.namespaces

theorem Scanning.setEnd {f : FileImpl} (h : Scanning build a es ns f) (ch : UInt8) :
    Scanning build a es ns { f with
      namespaceEndCache :=
        Function.update f.namespaceEndCache ch (some (searchedEnd es ch)) } where
  serves := h.serves.setCaches f.namespaceBeginCache _ f.namespaces
  scanned := ⟨h.scanned.begins, update_cached h.scanned.ends rfl⟩
  namespaces := h.namespaces

/-- An object that has only been opened. -/
theorem new_scanning {archive : Bytes} {direntCache clusterCache : ℕ} {f₀ : FileImpl}
    (hnew : new build archive direntCache clusterCache = .ok f₀) :
    Scanning build ⟨archive, f₀.header, f₀.mimeTypes⟩ es [] f₀ := by
  obtain ⟨hfresh, -⟩ := new_ok hnew
  refine ⟨new_serves hnew, ⟨fun ch ret h => ?_, fun ch ret h => ?_⟩, hfresh.namespaces⟩
  · rw [hfresh.namespaceBeginCache] at h
    cases h
  · rw [hfresh.namespaceEndCache] at h
    cases h

variable (hreadable : Archive.Readable build a es)
include hreadable

theorem getCountArticles_scanning {f : FileImpl} (h : Scanning build a es ns f) :
    f.getCountArticles = UInt32.ofNat es.length := by
  rw [getCountArticles, h.serves.header, hreadable.count, UInt32.ofNat_toNat]

theorem getDirent_scanning {p : UInt32} (hp : p < UInt32.ofNat es.length) :
    Runs (Scanning build a es ns) (getDirent build p) (.ok (es.getD p.toNat .new))
      (Scanning build a es ns) := by
  have hget := hreadable.dirent p _ (getElem?_lt hreadable.length_lt hp)
  have hruns := @getDirent_runs build a p
  rw [hget] at hruns
  have hkeeps : Preserves (fun f => Scanned es f ∧ f.namespaces = ns) (getDirent build p) :=
    getDirent_preserves (fun _ _ _ h => ⟨⟨h.1.begins, h.1.ends⟩, h.2⟩) p
  intro f hf
  obtain ⟨hout, hserves, hscanned, hns⟩ :=
    (hruns.and hkeeps) f ⟨hf.serves, hf.scanned, hf.namespaces⟩
  exact ⟨hout, hserves, hscanned, hns⟩

variable (hne : es ≠ [])
include hne

theorem getNamespaceBeginOffset_scanning (ch : UInt8) :
    Runs (Scanning build a es ns) (getNamespaceBeginOffset build ch) (.ok (searchedBegin es ch))
      (Scanning build a es ns) :=
  getNamespaceBeginOffset_searches (ofNat_length_pos hreadable.length_lt hne)
    (fun _ => getCountArticles_scanning hreadable) (fun _ => getDirent_scanning hreadable)
    (fun _ ret hf => hf.scanned.begins ch ret) (fun _ hf => hf.setBegin ch)

theorem getNamespaceEndOffset_scanning (ch : UInt8) :
    Runs (Scanning build a es ns) (getNamespaceEndOffset build ch) (.ok (searchedEnd es ch))
      (Scanning build a es ns) :=
  getNamespaceEndOffset_searches (ofNat_length_pos hreadable.length_lt hne)
    (fun _ => getCountArticles_scanning hreadable) (fun _ => getDirent_scanning hreadable)
    (fun _ ret hf => hf.scanned.ends ch ret) (fun _ hf => hf.setEnd ch)

theorem getNamespaceCount_scanning (ch : UInt8) :
    Runs (Scanning build a es ns) (getNamespaceCount build ch)
      (.ok (searchedEnd es ch - searchedBegin es ch)) (Scanning build a es ns) :=
  (getNamespaceEndOffset_scanning hreadable hne ch).bind
    ((getNamespaceBeginOffset_scanning hreadable hne ch).bind (.pure fun _ h => h))

/-- The loop ends while there are characters left. -/
theorem namespacesLoop_runs {turns : ℕ} {d : Dirent} (hroom : room d.getNamespace < turns) :
    Runs (Scanning build a es ns) (namespacesLoop build turns d) (.ok true)
      (Scanning build a es (ns ++ namespacesFrom es turns d.getNamespace)) := by
  induction turns generalizing d ns with
  | zero => omega
  | succ turns ih =>
    refine (getNamespaceEndOffset_scanning hreadable hne d.getNamespace).bind
      (.get_bind fun f hf => ?_)
    rw [getCountArticles_scanning hreadable hf]
    by_cases hlt : searchedEnd es d.getNamespace < UInt32.ofNat es.length
    · have hnext : nextNamespace es d.getNamespace =
          some (es.getD (searchedEnd es d.getNamespace).toNat .new).getNamespace := if_pos hlt
      have hless := room_of_next (ofNat_length_pos hreadable.length_lt hne) hnext
      have hmodify : ∀ f, Scanning build a es ns f → Scanning build a es
          (ns ++ [(es.getD (searchedEnd es d.getNamespace).toNat .new).getNamespace])
          { f with namespaces := f.namespaces ++
            [(es.getD (searchedEnd es d.getNamespace).toNat .new).getNamespace] } := by
        intro f hf
        rw [hf.namespaces]
        exact hf.setNamespaces _
      rw [if_pos hlt, namespacesFrom, hnext]
      refine (getDirent_scanning hreadable hlt).bind ((Runs.modify hmodify).bind ?_)
      have hmore := @ih (ns ++ [(es.getD (searchedEnd es d.getNamespace).toNat .new).getNamespace])
        (es.getD (searchedEnd es d.getNamespace).toNat .new) (by omega)
      rwa [List.append_assoc, List.singleton_append] at hmore
    · have hnext : nextNamespace es d.getNamespace = none := if_neg hlt
      rw [if_neg hlt, namespacesFrom, hnext, List.append_nil]
      exact .pure fun _ h => h

theorem getNamespaces_first {turns : ℕ} (hturns : 256 ≤ turns) :
    Runs (Scanning build a es []) (getNamespaces build turns) (.ok (some (namespacesOf es)))
      (Scanning build a es (namespacesOf es)) := by
  have hpos := ofNat_length_pos hreadable.length_lt hne
  have hroom := room_lt (es.getD 0 .new).getNamespace
  have hstable : namespacesFrom es turns (es.getD 0 .new).getNamespace =
      namespacesFrom es 256 (es.getD 0 .new).getNamespace :=
    namespacesFrom_stable hpos (by omega) hroom
  have hloop := @namespacesLoop_runs build a es [(es.getD 0 .new).getNamespace] hreadable hne turns
    (es.getD 0 .new) (by omega)
  rw [List.singleton_append, hstable] at hloop
  refine .get_bind fun f hf => ?_
  rw [hf.namespaces, if_pos rfl]
  refine (getDirent_scanning hreadable hpos).bind
    ((Runs.modify fun f hf => hf.setNamespaces _).bind (hloop.bind (.get_bind fun f hf => ?_)))
  rw [hf.namespaces]
  exact .pure fun _ h => h

omit hreadable hne in
theorem getNamespaces_again (turns : ℕ) :
    Runs (Scanning build a es (namespacesOf es)) (getNamespaces build turns)
      (.ok (some (namespacesOf es))) (Scanning build a es (namespacesOf es)) := by
  have hcons : namespacesOf es ≠ [] := List.cons_ne_nil _ _
  refine .get_bind fun f hf => ?_
  rw [hf.namespaces, if_neg hcons]
  refine .get_bind fun f hf => ?_
  rw [hf.namespaces]
  exact .pure fun _ h => h

end Scanning

/-- The calls that ask for namespaces or entries. -/
inductive Query where
  | dirent (idx : UInt32)
  | findx (ns : UInt8) (url : Bytes)
  | namespaceBegin (ch : UInt8)
  | namespaceEnd (ch : UInt8)
  | namespaceCount (ch : UInt8)
  | namespaces

/-- A call without its result. For the loop of `getNamespaces` there are more turns than
characters. -/
def Query.run (build : Build) : Query → M Unit
  | dirent idx => do let _ ← getDirent build idx
  | findx ns url => do let _ ← File.findx build ns url
  | namespaceBegin ch => do let _ ← getNamespaceBeginOffset build ch
  | namespaceEnd ch => do let _ ← getNamespaceEndOffset build ch
  | namespaceCount ch => do let _ ← getNamespaceCount build ch
  | namespaces => do let _ ← getNamespaces build 256

/-- The object after a sequence of calls. -/
def Query.after (build : Build) (queries : List Query) (f : FileImpl) : FileImpl :=
  queries.foldl (fun f query => state (query.run build f)) f

section Reachable
variable {ns : Bytes} (hreadable : Archive.Readable build a es)
include hreadable

theorem getDirent_keeps (idx : UInt32) :
    Preserves (Scanning build a es ns) (getDirent build idx) := by
  rcases UInt32.lt_or_le idx (UInt32.ofNat es.length) with hlt | hge
  · exact (getDirent_scanning hreadable hlt).preserves
  · have hout : a.dirent build idx = .error (.format "article index out of range") := by
      rw [hreadable.count, UInt32.ofNat_toNat] at hge
      exact if_pos hge
    have hruns := @getDirent_runs build a idx
    rw [hout] at hruns
    have hkeeps : Preserves (fun f => Scanned es f ∧ f.namespaces = ns) (getDirent build idx) :=
      getDirent_preserves (fun _ _ _ h => ⟨⟨h.1.begins, h.1.ends⟩, h.2⟩) idx
    intro f hf
    obtain ⟨-, hserves, hscanned, hns⟩ :=
      (hruns.and hkeeps) f ⟨hf.serves, hf.scanned, hf.namespaces⟩
    exact ⟨hserves, hscanned, hns⟩

variable (hne : es ≠ [])
include hne

theorem findx_keeps (ch : UInt8) (url : Bytes) :
    Preserves (Scanning build a es ns) (File.findx build ch url) := by
  have hprobe (p : UInt32) : Preserves (Scanning build a es ns)
      (do return File.compare ch url Dirent.getUrl (← getDirent build p)) :=
    .bind (getDirent_keeps hreadable p) fun _ => .pure _
  refine .bind (getNamespaceBeginOffset_scanning hreadable hne ch).preserves fun l =>
    .bind (getNamespaceEndOffset_scanning hreadable hne ch).preserves fun u =>
    .ite (.bind .get fun _ => .pure _) (.bind (bisect_preserves hprobe) fun r => ?_)
  obtain ⟨hit, l, u⟩ := r
  cases hit with
  | some p => exact .pure _
  | none => exact .bind (getDirent_keeps hreadable l) fun _ => .pure _

/-- What `namespaces` holds: nothing yet, or all of them. -/
def Enumerated (build : Build) (a : Archive) (es : List Dirent) (f : FileImpl) : Prop :=
  ∃ ns, (ns = [] ∨ ns = namespacesOf es) ∧ Scanning build a es ns f

theorem Query.run_enumerated (query : Query) :
    Preserves (Enumerated build a es) (query.run build) := by
  rintro f ⟨ns, hns, hf⟩
  cases query with
  | dirent idx => exact ⟨ns, hns, (getDirent_keeps hreadable idx).discard f hf⟩
  | findx ch url => exact ⟨ns, hns, (findx_keeps hreadable hne ch url).discard f hf⟩
  | namespaceBegin ch =>
    exact ⟨ns, hns, (getNamespaceBeginOffset_scanning hreadable hne ch).preserves.discard f hf⟩
  | namespaceEnd ch =>
    exact ⟨ns, hns, (getNamespaceEndOffset_scanning hreadable hne ch).preserves.discard f hf⟩
  | namespaceCount ch =>
    exact ⟨ns, hns, (getNamespaceCount_scanning hreadable hne ch).preserves.discard f hf⟩
  | namespaces =>
    rcases hns with rfl | rfl
    · have hruns : Runs (Scanning build a es []) (Query.namespaces.run build) (.ok ⟨⟩)
          (Scanning build a es (namespacesOf es)) :=
        (getNamespaces_first hreadable hne le_rfl).bind (.pure fun _ h => h)
      exact ⟨_, .inr rfl, (hruns f hf).2⟩
    · exact ⟨_, .inr rfl, (getNamespaces_again 256).preserves.discard f hf⟩

theorem Query.after_enumerated {f : FileImpl} (hf : Enumerated build a es f)
    (queries : List Query) : Enumerated build a es (Query.after build queries f) := by
  induction queries generalizing f with
  | nil => exact hf
  | cons query queries ih => exact ih (query.run_enumerated hreadable hne f hf)

end Reachable

section Results
variable {archive : Bytes} {direntCache clusterCache : ℕ} {f₀ : FileImpl}
  (hnew : new build archive direntCache clusterCache = .ok f₀)
  (hreadable : Archive.Readable build ⟨archive, f₀.header, f₀.mimeTypes⟩ es) (hne : es ≠ [])
include hnew hreadable hne

/-- However often it is asked, `getNamespaces` returns strictly increasing characters, and for
entries in order exactly their namespaces. -/
theorem getNamespaces_increasing (queries : List Query) :
    ∃ namespaces : Bytes,
      (∀ turns ≥ 256, outcome (getNamespaces build turns (Query.after build queries f₀)) =
        .ok (some namespaces)) ∧
      (namespaces.Pairwise fun c c' => charValue c < charValue c') ∧
      (SortedByNamespace es →
        ∀ ch, ch ∈ namespaces ↔ ∃ d ∈ es, d.getNamespace = ch) := by
  have hlen := hreadable.length_lt
  obtain ⟨ns, hns, hf⟩ := Query.after_enumerated hreadable hne ⟨[], .inl rfl, new_scanning hnew⟩
    queries
  refine ⟨namespacesOf es, fun turns hturns => ?_, namespacesOf_pairwise hlen hne,
    fun hsorted => mem_namespacesOf hlen hne hsorted⟩
  rcases hns with rfl | rfl
  · exact (getNamespaces_first hreadable hne hturns _ hf).1
  · exact (getNamespaces_again turns _ hf).1

/-- The answers to the three questions for a character are the numbers they stand for. -/
structure ExactOffsets (build : Build) (es : List Dirent) (ch : UInt8) (f : FileImpl) : Prop where
  begins : ∃ ret, outcome (getNamespaceBeginOffset build ch f) = .ok ret ∧
    ret.toNat = namespaceBegin es ch
  ends : ∃ ret, outcome (getNamespaceEndOffset build ch f) = .ok ret ∧
    ret.toNat = namespaceEnd es ch
  count : ∃ ret, outcome (getNamespaceCount build ch f) = .ok ret ∧
    ret.toNat = namespaceCount es ch

/-- However often they are asked for, the offsets of a namespace are right exactly if it is not
before the one of the first entry. -/
theorem exactOffsets_iff (hsorted : SortedByNamespace es) (queries : List Query) (ch : UInt8) :
    ExactOffsets build es ch (Query.after build queries f₀) ↔
      ∃ d, es[0]? = some d ∧ charValue d.getNamespace ≤ charValue ch := by
  have hlen := hreadable.length_lt
  have hkey := hsorted.sortedBy
  obtain ⟨ns, -, hf⟩ := Query.after_enumerated hreadable hne ⟨[], .inl rfl, new_scanning hnew⟩
    queries
  have hbegin := (getNamespaceBeginOffset_scanning hreadable hne ch _ hf).1
  have hend := (getNamespaceEndOffset_scanning hreadable hne ch _ hf).1
  have hcount := (getNamespaceCount_scanning hreadable hne ch _ hf).1
  have hbegin' := @searchedBegin_toNat _ _ ch hlen hkey hne
  have hend' := @searchedEnd_toNat _ _ ch hlen hkey hne
  have hfirst := getElem?_first hne
  have hpos := lt_namespaceEnd ch hkey hfirst
  constructor
  · intro h
    obtain ⟨ret, hret, hnat⟩ := h.ends
    rw [hend] at hret
    cases hret
    exact ⟨_, hfirst, hpos.mp (by omega)⟩
  · rintro ⟨d, hd, hle⟩
    rw [hfirst] at hd
    cases hd
    have hone := hpos.mpr hle
    have hsum := namespaceEnd_eq_add es ch
    refine ⟨⟨_, hbegin, hbegin'⟩, ⟨_, hend, by omega⟩, ⟨_, hcount, ?_⟩⟩
    rw [UInt32.toNat_sub_of_le _ _ (UInt32.le_iff_toNat_le.mpr (by omega))]
    omega

end Results

section Examples
open File

theorem threeEntriesArchive_readable : ∃ f, new .noCodecs threeEntriesArchive 2 2 = .ok f ∧
    Archive.Readable .noCodecs ⟨threeEntriesArchive, f.header, f.mimeTypes⟩ threeEntries := by
  obtain ⟨f, hnew, hindexed⟩ := threeEntriesArchive_opens
  exact ⟨f, hnew, hindexed.count, hindexed.dirent⟩

theorem getNamespaces_increasing_threeEntries :
    ∃ f, new .noCodecs threeEntriesArchive 2 2 = .ok f ∧
      ∃ namespaces : Bytes,
        (∀ turns ≥ 256, outcome (getNamespaces .noCodecs turns
          (Query.after .noCodecs [.namespaces, .findx 65 [0x62]] f)) = .ok (some namespaces)) ∧
        (namespaces.Pairwise fun c c' => charValue c < charValue c') ∧
        (SortedByNamespace threeEntries →
          ∀ ch, ch ∈ namespaces ↔ ∃ d ∈ threeEntries, d.getNamespace = ch) := by
  obtain ⟨f, hnew, hreadable⟩ := threeEntriesArchive_readable
  exact ⟨f, hnew, getNamespaces_increasing hnew hreadable (List.cons_ne_nil _ _) _⟩

theorem exactOffsets_iff_threeEntries : ∃ f, new .noCodecs threeEntriesArchive 2 2 = .ok f ∧
    (ExactOffsets .noCodecs threeEntries 66
        (Query.after .noCodecs [.namespaceCount 67, .namespaceEnd 65] f) ↔
      ∃ d, threeEntries[0]? = some d ∧ charValue d.getNamespace ≤ charValue 66) := by
  obtain ⟨f, hnew, hreadable⟩ := threeEntriesArchive_readable
  have hsorted : SortedByNamespace threeEntries := by
    unfold SortedByNamespace
    decide
  exact ⟨f, hnew, exactOffsets_iff hnew hreadable (List.cons_ne_nil _ _) hsorted _ _⟩

theorem oneEntryArchive_readable : ∃ f, new .noCodecs oneEntryArchive 2 2 = .ok f ∧
    Archive.Readable .noCodecs ⟨oneEntryArchive, f.header, f.mimeTypes⟩ [oneEntry] := by
  obtain ⟨f, hnew, hindexed, -⟩ := oneEntryArchive_opens
  exact ⟨f, hnew, hindexed.count, hindexed.dirent⟩

/-- A namespace before the one of the only entry ends at 1 and counts this entry. -/
theorem not_exactOffsets : ¬ ∀ (build : Build) (archive : Bytes) (direntCache clusterCache : ℕ)
    (f₀ : FileImpl) (es : List Dirent),
    new build archive direntCache clusterCache = .ok f₀ →
    Archive.Readable build ⟨archive, f₀.header, f₀.mimeTypes⟩ es → es ≠ [] →
    SortedByNamespace es → ∀ ch, ExactOffsets build es ch f₀ := by
  intro hall
  obtain ⟨f, hnew, hreadable⟩ := oneEntryArchive_readable
  have hends := (hall .noCodecs oneEntryArchive 2 2 f [oneEntry] hnew hreadable
    (List.cons_ne_nil _ _) (List.pairwise_singleton _ _) 65).ends
  obtain ⟨ret, hret, hnat⟩ := hends
  have hrun := (getNamespaceEndOffset_scanning hreadable (List.cons_ne_nil _ _) 65 f
    (new_scanning hnew)).1
  rw [hrun] at hret
  cases hret
  revert hnat
  decide +kernel

end Examples
end FileImpl
end Zim
