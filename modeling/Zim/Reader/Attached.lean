import Zim.Lib.Determined
import Zim.Lib.Fallible
import Zim.Reader.Article
import Zim.Reader.ErrorState

/-! Lookups in any archive, in order or not: what they find is a function of the archive. -/
namespace Bisect
open Stateful
variable {ε σ : Type} {P : Bool → σ → Prop} {E : ε → σ → Prop}
  {probe : UInt32 → EStateM ε σ Ordering} {side : UInt32 → Except ε Ordering}

theorem loop_follows (h : ∀ p, Follows P E (probe p) (side p)) (turns : ℕ) (l u : UInt32) :
    Follows P E (loop probe turns l u) (loop side turns l u) := by
  induction turns generalizing l u with
  | zero => exact .pure _
  | succ turns ih =>
    unfold loop
    split
    · refine (h _).bind fun v _ => ?_
      cases v with
      | lt => exact ih _ _
      | gt => exact ih _ _
      | eq => exact .pure _
    · exact .pure _

theorem bisect_follows (h : ∀ p, Follows P E (probe p) (side p)) (l u : UInt32) :
    Follows P E (bisect probe l u) (bisect side l u) := loop_follows h _ l u

/-- A search hits where a probe says so. -/
theorem loop_hit {turns : ℕ} {l u p l' u' : UInt32}
    (h : loop side turns l u = .ok (some p, l', u')) : side p = .ok .eq := by
  induction turns generalizing l u with
  | zero => cases h
  | succ turns ih =>
    unfold loop at h
    split at h
    · obtain ⟨v, hv, h⟩ := Fallible.bind_eq_ok.mp h
      cases v with
      | lt => exact ih h
      | gt => exact ih h
      | eq =>
        cases h
        exact hv
    · cases h

end Bisect

namespace Zim
open Cxx Stateful Bisect FileImpl

namespace Archive
variable (build : Build) (a : Archive)

/-- The outcome of `getNamespaceBeginOffset`. -/
def beginOffset (ch : UInt8) : Except ZimError UInt32 := do
  let d ← a.dirent build 0
  let (_, lower, upper) ← bisect (fun m => do
    let d ← a.dirent build m
    return if charValue ch ≤ charValue d.getNamespace then .lt else .gt)
    0 a.header.articleCount
  return if charValue d.getNamespace < charValue ch then upper else lower

/-- The outcome of `getNamespaceEndOffset`. -/
def endOffset (ch : UInt8) : Except ZimError UInt32 := do
  let (_, _, upper) ← bisect (fun m => do
    let d ← a.dirent build m
    return if charValue ch < charValue d.getNamespace then .lt else .gt)
    0 a.header.articleCount
  return upper

/-- The outcome of `findx`. -/
def findx (ns : UInt8) (url : Bytes) : Except ZimError (Bool × UInt32) := do
  let l ← a.beginOffset build ns
  let u ← a.endOffset build ns
  if l = u then return (false, a.header.articleCount)
  else
    let (hit, l, u) ← bisect (fun p => do
      return File.compare ns url Dirent.getUrl (← a.dirent build p)) l u
    match hit with
    | some p => return (true, p)
    | none =>
      let d ← a.dirent build l
      return match stringCompare url d.getUrl with
        | .eq => (true, l)
        | .lt => (false, l)
        | .gt => (false, u)

/-- The mime type of an entry, none being what lies behind the list. -/
def mimeType (idx : UInt32) : Except ZimError (Option Bytes) := do
  let d ← a.dirent build idx
  if a.mimeTypes.length < d.getMimeType.toNat then .error (.mimeType d.getMimeType)
  else .ok a.mimeTypes[d.getMimeType.toNat]?

/-- The data of an entry, none being a blob that its cluster does not have. -/
def data (idx : UInt32) : Except ZimError (Option Bytes) := do
  let d ← a.dirent build idx
  if d.isRedirect then return some []
  else return (← a.cluster build d.getClusterNumber).getBlob d.getBlobNumber

end Archive

variable {build : Build} {a : Archive}

theorem Archive.dirent_lt {idx : UInt32} {d : Dirent} (h : a.dirent build idx = .ok d) :
    idx < a.header.articleCount := by
  by_contra hge
  rw [Archive.dirent, if_pos (UInt32.not_lt.mp hge)] at h
  cases h

/-- An article that is found is one of the archive. -/
theorem Archive.findx_lt {ns : UInt8} {url : Bytes} {p : UInt32}
    (h : a.findx build ns url = .ok (true, p)) : p < a.header.articleCount := by
  obtain ⟨l, -, h⟩ := Fallible.bind_eq_ok.mp h
  obtain ⟨u, -, h⟩ := Fallible.bind_eq_ok.mp h
  split_ifs at h
  · cases h
  obtain ⟨⟨hit, l', u'⟩, hsearch, h⟩ := Fallible.bind_eq_ok.mp h
  cases hit with
  | some q =>
    cases h
    obtain ⟨d, hd, -⟩ := Fallible.bind_eq_ok.mp (loop_hit hsearch)
    exact dirent_lt hd
  | none =>
    obtain ⟨d, hd, h⟩ := Fallible.bind_eq_ok.mp h
    have hl := dirent_lt hd
    cases hcompare : stringCompare url d.getUrl with
    | eq =>
      rw [hcompare] at h
      cases h
      exact hl
    | lt =>
      rw [hcompare] at h
      cases h
    | gt =>
      rw [hcompare] at h
      cases h

/-- An object that has read an archive, with what its caches hold of the namespaces. The flag tells
whether a read from the stream has been lost. -/
structure Attached (build : Build) (a : Archive) (lost : Bool) (f : FileImpl) : Prop where
  serves : Serves build a lost f
  begins : ∀ ch ret, f.namespaceBeginCache ch = some ret → a.beginOffset build ch = .ok ret
  ends : ∀ ch ret, f.namespaceEndCache ch = some ret → a.endOffset build ch = .ok ret

theorem new_attached {archive : Bytes} {direntCache clusterCache : ℕ} {f₀ : FileImpl}
    (hnew : FileImpl.new build archive direntCache clusterCache = .ok f₀) :
    Attached build ⟨archive, f₀.header, f₀.mimeTypes⟩ false f₀ := by
  obtain ⟨hfresh, -⟩ := new_ok hnew
  refine ⟨new_serves hnew, fun ch ret h => ?_, fun ch ret h => ?_⟩
  · rw [hfresh.namespaceBeginCache] at h
    cases h
  · rw [hfresh.namespaceEndCache] at h
    cases h

/-- The caches of the namespaces are the given ones. -/
def HasCaches (begins ends : UInt8 → Option UInt32) (f : FileImpl) : Prop :=
  f.namespaceBeginCache = begins ∧ f.namespaceEndCache = ends

theorem Attached.of_caches {lost lost' : Bool} {f f' : FileImpl} (h : Attached build a lost f)
    (hserves : Serves build a lost' f')
    (hcaches : HasCaches f.namespaceBeginCache f.namespaceEndCache f') :
    Attached build a lost' f' :=
  ⟨hserves, hcaches.1 ▸ h.begins, hcaches.2 ▸ h.ends⟩

/-- A program that returns what is determined by the archive. -/
def Determined {α : Type} (build : Build) (a : Archive) (x : M α) (r : Except ZimError α) : Prop :=
  Follows (Attached build a) (fun _ f => ∃ lost, Attached build a lost f) x r

/-- A program that answers with the archive and that has nothing to do with the namespaces. -/
theorem determined_of {α : Type} {x : M α} {r : Except ZimError α}
    (hcaches : ∀ begins ends, Preserves (HasCaches begins ends) x)
    (hruns : Runs (Serves build a false) x r (Serves build a (readFailure r)))
    (hlost : ∀ f, Serves build a true f →
      (outcome (x f) = r ∨ ∃ e, outcome (x f) = .error e) ∧ Serves build a true (state (x f))) :
    Determined build a x r := by
  intro lost f hf
  have hkeeps := hcaches _ _ f ⟨rfl, rfl⟩
  cases lost with
  | false =>
    obtain ⟨hout, hserves⟩ := hruns f hf.serves
    cases hx : x f with
    | ok v f' =>
      rw [hx] at hkeeps hout hserves
      rw [← hout] at hserves
      exact ⟨hout.symm, hf.of_caches hserves hkeeps⟩
    | error e f' =>
      rw [hx] at hkeeps hout hserves
      exact ⟨fun _ => hout.symm, _, hf.of_caches hserves hkeeps⟩
  | true =>
    obtain ⟨hout, hserves⟩ := hlost f hf.serves
    cases hx : x f with
    | ok v f' =>
      rw [hx] at hkeeps hout hserves
      refine ⟨?_, hf.of_caches hserves hkeeps⟩
      obtain hout | ⟨e, hout⟩ := hout
      · exact hout.symm
      · cases hout
    | error e f' =>
      rw [hx] at hkeeps hout hserves
      exact ⟨fun h => (by cases h), _, hf.of_caches hserves hkeeps⟩

theorem getDirent_determined (idx : UInt32) :
    Determined build a (getDirent build idx) (a.dirent build idx) := by
  refine determined_of (fun _ _ => getDirent_preserves (fun _ _ _ h => h) idx) getDirent_runs
    fun f hf => ?_
  obtain ⟨hout, hserves⟩ := getDirent_lost f hf
  refine ⟨.inr ?_, hserves⟩
  split_ifs at hout
  · exact ⟨_, hout⟩
  · exact ⟨_, hout⟩

theorem getCluster_determined (idx : UInt32) :
    Determined build a (getCluster build idx) (a.cluster build idx) := by
  refine determined_of (fun _ _ => getCluster_preserves (fun _ _ _ h => h) idx) getCluster_runs
    fun f hf => ?_
  obtain ⟨hout, hserves⟩ := getCluster_lost hf
  exact ⟨hout.imp_right fun h => ⟨_, h⟩, hserves⟩

theorem Attached.count {lost : Bool} {f : FileImpl} (h : Attached build a lost f) :
    f.getCountArticles = a.header.articleCount := by
  rw [getCountArticles, h.serves.header]

theorem getNamespaceBeginOffset_determined (ch : UInt8) :
    Determined build a (getNamespaceBeginOffset build ch) (a.beginOffset build ch) := by
  refine .get_bind fun lost f hf => ?_
  cases hcache : f.namespaceBeginCache ch with
  | some ret =>
    rw [hf.begins ch ret hcache]
    exact .pure _
  | none =>
    refine (getDirent_determined 0).bind fun d hd => .get_bind fun lost f hf => ?_
    rw [hf.count]
    refine (bisect_follows (fun m => (getDirent_determined m).bind fun _ _ => .pure _) _ _).bind
      fun v hv => ?_
    obtain ⟨hit, lower, upper⟩ := v
    refine .seq (.modify fun lost f hf => ?_) (.pure _)
    have hret : a.beginOffset build ch =
        .ok (if charValue d.getNamespace < charValue ch then upper else lower) :=
      Fallible.bind_eq_ok.mpr ⟨d, hd, Fallible.bind_eq_ok.mpr ⟨_, hv, rfl⟩⟩
    exact ⟨hf.serves.setCaches _ _ _, update_cached hf.begins hret, hf.ends⟩

theorem getNamespaceEndOffset_determined (ch : UInt8) :
    Determined build a (getNamespaceEndOffset build ch) (a.endOffset build ch) := by
  refine .get_bind fun lost f hf => ?_
  cases hcache : f.namespaceEndCache ch with
  | some ret =>
    rw [hf.ends ch ret hcache]
    exact .pure _
  | none =>
    refine .get_bind fun lost f hf => ?_
    rw [hf.count]
    refine (bisect_follows (fun m => (getDirent_determined m).bind fun _ _ => .pure _) _ _).bind
      fun v hv => ?_
    obtain ⟨hit, lower, upper⟩ := v
    refine .seq (.modify fun lost f hf => ?_) (.pure _)
    have hret : a.endOffset build ch = .ok upper := Fallible.bind_eq_ok.mpr ⟨_, hv, rfl⟩
    exact ⟨hf.serves.setCaches _ _ _, hf.begins, update_cached hf.ends hret⟩

theorem findx_determined (ns : UInt8) (url : Bytes) :
    Determined build a (File.findx build ns url) (a.findx build ns url) := by
  refine (getNamespaceBeginOffset_determined ns).bind fun l _ =>
    (getNamespaceEndOffset_determined ns).bind fun u _ => ?_
  split
  · refine .get_bind fun lost f hf => ?_
    rw [hf.count]
    exact .pure _
  · refine (bisect_follows (fun p => (getDirent_determined p).bind fun _ _ => .pure _) _ _).bind
      fun v _ => ?_
    obtain ⟨hit, l, u⟩ := v
    cases hit with
    | some p => exact .pure _
    | none => exact (getDirent_determined l).bind fun d _ => .pure _

namespace Article
variable (article : Article)

theorem getMimeType_determined :
    Determined build a (article.getMimeType build) (a.mimeType build article.idx) := by
  have hcode : article.getMimeType build =
      article.getDirent build >>= fun d => FileImpl.getMimeType d.getMimeType := by
    rw [getMimeType, getLibraryMimeType, bind_assoc]
    simp only [pure_bind]
  rw [hcode]
  refine (getDirent_determined article.idx).bind fun d _ => .get_bind fun lost f hf => ?_
  obtain ⟨s, -, hholds⟩ := hf.serves
  rw [hholds.mimeTypes]
  by_cases hlt : a.mimeTypes.length < d.getMimeType.toNat
  · simp only [if_pos hlt]
    exact .throw_bind fun lost f hf => ⟨lost, hf⟩
  · simp only [if_neg hlt]
    exact .pure _

theorem getData_determined :
    Determined build a (article.getData build) (a.data build article.idx) := by
  refine (getDirent_determined article.idx).bind fun d _ => ?_
  split
  · exact .pure _
  · exact (getCluster_determined _).bind fun c _ => .pure _

end Article
end Zim
