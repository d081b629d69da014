import Zim.Reader.LookupLaw

/-! `zim::Article` (article.h) over `zim::File` (file.h, file.cpp). -/
namespace Zim
open Cxx Stateful FileImpl

/-- An article of the file that is the state. -/
structure Article where
  idx : UInt32
  deriving DecidableEq

namespace File
variable (build : Build)

def getBlob (clusterIdx blobIdx : UInt32) : M (Option Bytes) := do
  return (← getCluster build clusterIdx).getBlob blobIdx

end File

namespace Article
variable (build : Build) (article : Article)

/-- `Article()`. It has no file, and its getters are not for use. -/
def new : Article := ⟨0xffffffff⟩

def getIndex : UInt32 := article.idx

def good : Bool := article.idx ≠ 0xffffffff

def getDirent : M Dirent := FileImpl.getDirent build article.idx

def getParameter : M Bytes := return (← article.getDirent build).getParameter
def getTitle : M Bytes := return (← article.getDirent build).getTitle
def getUrl : M Bytes := return (← article.getDirent build).getUrl
def getLibraryMimeType : M UInt16 := return (← article.getDirent build).getMimeType
def isRedirect : M Bool := return (← article.getDirent build).isRedirect
def getNamespace : M UInt8 := return (← article.getDirent build).getNamespace
def getRedirectIndex : M UInt32 := return (← article.getDirent build).getRedirectIndex

def getMimeType : M (Option Bytes) := do
  FileImpl.getMimeType (← article.getLibraryMimeType build)

def getRedirectArticle : M Article := return ⟨← article.getRedirectIndex build⟩

def getData : M (Option Bytes) := do
  let dirent ← article.getDirent build
  if dirent.isRedirect then return some []
  else File.getBlob build dirent.getClusterNumber dirent.getBlobNumber

end Article

namespace File

/-- `getArticle(ns, url)`. The iterator that is dereferenced is at the position found. -/
def getArticle (build : Build) (ns : UInt8) (url : Bytes) : M Article := do
  let r ← findx build ns url
  return if r.1 then ⟨r.2⟩ else .new

end File

section Cluster
variable {build : Build} {a : Archive} {es : List Dirent}

namespace FileImpl

section Preserves
variable {I : FileImpl → Prop} (hI : ∀ f zimFile clusterCache, I f → I { f with
  zimFile := zimFile, clusterCache := clusterCache })
include hI

/-- Reading a cluster changes the stream and the cache of the clusters only. -/
theorem readCluster_preserves (idx : UInt32) : Preserves I (readCluster build idx) := by
  have hstream (f : FileImpl) (s : IStream) (hf : I f) : I (f.withStream s) := hI f _ _ hf
  have hbufsize : Preserves I (setBufsize 16384) := .modify fun f hf => hI f _ _ hf
  have hput (c : Cluster) : Preserves I
      (modify fun f => { f with clusterCache := f.clusterCache.put idx c } : M Unit) :=
    .modify fun f hf => hI f _ _ hf
  have hextract : Preserves I (extractCluster build) := by
    refine .bind .get fun f => ?_
    simp only
    split
    · exact .throw _
    · exact .bind (setStream_preserves hstream _) fun _ => .pure _
  have hoffset : Preserves I (getClusterOffset build idx) :=
    .bind .get fun _ => getOffset_preserves hstream _ _
  refine .bind hbufsize fun _ => .bind hoffset fun _ => .bind (seekg_preserves hstream _) fun _ =>
    .bind hextract fun c => .bind failed_preserves fun _ => .ite (.throw_bind _) ?_
  exact .ite (.bind (hput c) fun _ => .pure _) (.pure _)

theorem getCluster_preserves (idx : UInt32) : Preserves I (getCluster build idx) := by
  refine .bind .get fun _ => .ite (.throw_bind _)
    (.bind (.modifyGet fun f hf => hI f _ _ hf) fun v => ?_)
  cases v with
  | some cluster => exact .pure _
  | none => exact readCluster_preserves hI idx

end Preserves

theorem getCluster_coherent (idx : UInt32) : Preserves (Coherent es) (getCluster build idx) :=
  getCluster_preserves (fun _ _ _ h => ⟨h.1, h.2⟩) idx

theorem getCluster_looking {k : UInt32} {c : Cluster} (h : a.cluster build k = .ok c) :
    Runs (Looking build a es) (getCluster build k) (.ok c) (Looking build a es) := by
  have hruns := @getCluster_runs build a k
  rw [h] at hruns
  exact hruns.and (getCluster_coherent k)

end FileImpl
end Cluster

namespace Article
variable {build : Build} {a : Archive} {es : List Dirent} {article : Article} {d : Dirent}

/-- What a getter takes from the entry of its article. -/
theorem get_runs {α : Type} (get : Dirent → α) (hd : a.dirent build article.idx = .ok d) :
    Runs (Looking build a es) (do return get (← article.getDirent build)) (.ok (get d))
      (Looking build a es) :=
  (getDirent_looking hd).bind (.pure fun _ h => h)

theorem getMimeType_runs (hd : a.dirent build article.idx = .ok d) {mimeType : Bytes}
    (hm : a.mimeTypes[d.getMimeType.toNat]? = some mimeType) :
    Runs (Looking build a es) (article.getMimeType build) (.ok (some mimeType))
      (Looking build a es) := by
  obtain ⟨hlt, -⟩ := List.getElem?_eq_some_iff.mp hm
  refine (get_runs Dirent.getMimeType hd).bind (.get_bind fun f hf => ?_)
  obtain ⟨⟨s, -, hholds⟩, -⟩ := hf
  rw [hholds.mimeTypes, if_neg (by omega), hm]
  exact .pure fun _ h => h

theorem getRedirectArticle_runs (hd : a.dirent build article.idx = .ok d) :
    Runs (Looking build a es) (article.getRedirectArticle build) (.ok ⟨d.getRedirectIndex⟩)
      (Looking build a es) :=
  (get_runs Dirent.getRedirectIndex hd).bind (.pure fun _ h => h)

theorem getData_runs (hd : a.dirent build article.idx = .ok d) (hr : d.isRedirect = false)
    {c : Cluster} (hc : a.cluster build d.getClusterNumber = .ok c) {bs : Bytes}
    (hb : c.getBlob d.getBlobNumber = some bs) :
    Runs (Looking build a es) (article.getData build) (.ok (some bs)) (Looking build a es) := by
  apply (getDirent_looking hd).bind
  rw [hr, if_neg Bool.false_ne_true, ← hb]
  exact (getCluster_looking hc).bind (.pure fun _ h => h)

end Article

namespace File
variable {build : Build} {a : Archive} {es : List Dirent} {ts : List UInt32}

/-- Entries whose namespaces and urls are distinct, in order. -/
def Distinct (es : List Dirent) : Prop :=
  es.Pairwise fun d d' =>
    charStringKey d.getNamespace d.getUrl < charStringKey d'.getNamespace d'.getUrl

theorem Distinct.sorted (h : Distinct es) : SortedBy Dirent.getUrl es := h.imp le_of_lt

theorem Distinct.index (h : Distinct es) {i j : ℕ} {d e : Dirent} (hd : es[i]? = some d)
    (he : es[j]? = some e) (hns : d.getNamespace = e.getNamespace) (hurl : d.getUrl = e.getUrl) :
    i = j := by
  obtain ⟨hi, rfl⟩ := List.getElem?_eq_some_iff.mp hd
  obtain ⟨hj, rfl⟩ := List.getElem?_eq_some_iff.mp he
  rcases Nat.lt_trichotomy i j with hlt | heq | hlt
  · have hkey := List.pairwise_iff_getElem.mp h i j hi hj hlt
    rw [hns, hurl] at hkey
    exact absurd hkey (lt_irrefl _)
  · exact heq
  · have hkey := List.pairwise_iff_getElem.mp h j i hj hi hlt
    rw [hns, hurl] at hkey
    exact absurd hkey (lt_irrefl _)

/-- An article is found under its namespace and url. -/
theorem getArticle_runs (hindexed : a.Indexed build es ts) (hdistinct : Distinct es) {i : UInt32}
    {d : Dirent} (hd : es[i.toNat]? = some d) :
    Runs (Looking build a es) (getArticle build d.getNamespace d.getUrl) (.ok ⟨i⟩)
      (Looking build a es) := by
  have hmem := List.mem_of_getElem? hd
  have hne : es ≠ [] := List.ne_nil_of_mem hmem
  have hruns := findx_runs hindexed hdistinct.sorted hne d.getNamespace d.getUrl
  have hnot : ¬ BelowFirst es Dirent.getUrl d.getNamespace d.getUrl := by
    rintro ⟨e, he, hlt, -⟩
    have hle := hdistinct.sorted.namespaces
    obtain ⟨hi, rfl⟩ := List.getElem?_eq_some_iff.mp hd
    obtain ⟨h0, rfl⟩ := List.getElem?_eq_some_iff.mp he
    rcases Nat.eq_zero_or_pos i.toNat with hzero | hpos
    · simp only [hzero, lt_self_iff_false] at hlt
    · exact absurd (List.pairwise_iff_getElem.mp hle 0 _ h0 hi hpos) (not_le.mpr hlt)
  have hcorrect := (found_correct_iff hdistinct.sorted hne
    (namespaceBegin_toNat hindexed d.getNamespace)
    (foundEnd_toNat hindexed d.getNamespace)).mpr hnot
  generalize found es Dirent.getUrl _ _ d.getNamespace d.getUrl = r at hruns hcorrect
  obtain ⟨hit, p⟩ := r
  cases hit with
  | false => exact absurd ⟨rfl, rfl⟩ (hcorrect.absent rfl d hmem)
  | true =>
    obtain ⟨e, he, hns, hurl⟩ := hcorrect.found rfl
    obtain rfl : p = i := UInt32.toNat_inj.mp (hdistinct.index he hd hns hurl)
    exact hruns.bind (.pure fun _ h => h)

end File
end Zim
