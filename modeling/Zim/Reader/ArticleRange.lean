import Zim.Lib.Fallible
import Zim.Format.ClusterCodec
import Zim.Reader.Article
import Zim.Reader.ErrorState

/-! Which reads of an article stay inside the list of mime types and the offsets of a cluster
(article.h, fileimpl.cpp, cluster.h). -/
namespace Zim
open Cxx Stateful FileImpl

namespace ClusterImpl

/-- The bytes behind the compression flag of a stored cluster, decompressed. -/
def stored (build : Build) (bs : Bytes) : Bytes :=
  match CompressionType.ofChar (bs.headD 0) with
  | none => bs.tail
  | some compression =>
    if compression.isCompressed then
      match build.codec compression with
      | none => []
      | some codec => (codec.uncompress bs.tail).1
    else bs.tail

/-- A cluster that is read without a failure has what the stored words say. -/
theorem get_decoded {build : Build} {s : IStream} {c : ClusterImpl}
    (h : get build s = .ok (c, false)) : Decoded (stored build s.rest) c := by
  unfold get at h
  cases hget : s.get with
  | mk ch s₁ =>
    have hrest : ∀ b, ch = some b → s.rest = b :: s₁.rest := by
      rintro b rfl
      rw [(IStream.get_some hget).1]
    cases hflag : CompressionType.ofChar (ch.getD 0) with
    | none => simp [hget, hflag] at h
    | some compression =>
      by_cases hc : compression.isCompressed = true
      · cases hcodec : build.codec compression with
        | none => simp [hget, hflag, hc, hcodec] at h
        | some codec =>
          cases ch with
          | none =>
            cases hflag
            cases hc
          | some b =>
            have hstored : stored build s.rest = (codec.uncompress s₁.rest).1 := by
              rw [hrest b rfl, stored, List.headD_cons, List.tail_cons]
              rw [Option.getD_some] at hflag
              simp only [hflag, hc, hcodec, ↓reduceIte]
            cases hread : (new.setCompression compression).read build.host
                (.ofBytes (codec.uncompress s₁.rest).1) with
            | mk cluster is =>
              simp only [hget, hflag, hc, hcodec, hread, ↓reduceIte] at h
              split_ifs at h with hfail
              simp only [Except.ok.injEq, Prod.mk.injEq] at h
              obtain ⟨rfl, -⟩ := h
              rw [hstored]
              exact (read_decoded hread (eq_false_of_ne_true hfail)).2
      · cases hread : (new.setCompression compression).read build.host s₁ with
        | mk cluster s₂ =>
          simp only [hget, hflag, hc, hread, Bool.false_eq_true, ↓reduceIte, Except.ok.injEq,
            Prod.mk.injEq] at h
          obtain ⟨rfl, hfail⟩ := h
          obtain ⟨hgood, hdecoded⟩ := read_decoded hread hfail
          cases ch with
          | none => simp [IStream.get_none hget] at hgood
          | some b =>
            have hstored : stored build s.rest = s₁.rest := by
              rw [hrest b rfl, stored, List.headD_cons, List.tail_cons]
              rw [Option.getD_some] at hflag
              simp only [hflag, hc, Bool.false_eq_true, ↓reduceIte]
            rw [hstored]
            exact hdecoded

theorem Decoded.getCount {bs : Bytes} {c : ClusterImpl} (h : Decoded bs c) :
    c.getCount.toNat = moreWords bs := by
  have hlen : c.offsets.length = moreWords bs + 1 := by simp [h.offsets]
  have hmore := moreWords_lt bs
  rw [getCount_toNat (by omega) (by omega), hlen, Nat.add_sub_cancel]

end ClusterImpl

namespace Archive
variable (build : Build) (a : Archive)

/-- What cluster `k` is decoded from. -/
def clusterContent (k : UInt32) : Bytes :=
  match a.offset build a.header.clusterPtrPos k with
  | .ok off => ClusterImpl.stored build (a.content.drop off.toNat)
  | .error _ => []

variable {build a}

theorem cluster_count {k : UInt32} {c : Cluster} (h : a.cluster build k = .ok c) :
    c.count.toNat = ClusterImpl.moreWords (a.clusterContent build k) := by
  unfold cluster at h
  split_ifs at h
  obtain ⟨off, hoff, h⟩ := Fallible.bind_eq_ok.mp h
  obtain ⟨s, hseek, h⟩ := Fallible.bind_eq_ok.mp h
  obtain ⟨⟨impl, fail⟩, hget, h⟩ := Fallible.bind_eq_ok.mp h
  simp only at h
  split_ifs at h with hfail
  cases h
  have hs : s = .ofBytes (a.content.drop off.toNat) := by
    unfold seek at hseek
    split_ifs at hseek
    cases hseek
    rfl
  rw [clusterContent, hoff]
  rw [eq_false_of_ne_true hfail, hs] at hget
  exact (ClusterImpl.get_decoded hget).getCount

/-- The stored code of the mime type of an entry is not the one behind the list, and its blob
number is below the number of blobs that its cluster has by its first word. -/
structure StoredInRange (build : Build) (a : Archive) (idx : UInt32) : Prop where
  mimeType : ∀ d, a.dirent build idx = .ok d → d.getMimeType.toNat ≠ a.mimeTypes.length
  blob : ∀ d c, a.dirent build idx = .ok d → d.isRedirect = false →
    a.cluster build d.getClusterNumber = .ok c →
    d.getBlobNumber.toNat < ClusterImpl.moreWords (a.clusterContent build d.getClusterNumber)

end Archive

namespace Article
variable (build : Build) (article : Article)

/-- `getMimeType` and `getData` throw or read the list of mime types below its length and the
offsets of the cluster below its number of blobs. -/
structure InRange (f : FileImpl) : Prop where
  mimeType : outcome (article.getMimeType build f) ≠ .ok none
  blob : ∀ d c, outcome (article.getDirent build f) = .ok d → d.isRedirect = false →
    outcome (getCluster build d.getClusterNumber (state (article.getDirent build f))) = .ok c →
    d.getBlobNumber < c.count

variable {build article} {a : Archive}

theorem getMimeType_serves (code : UInt16) :
    Runs (Serves build a false) (FileImpl.getMimeType code)
      (if a.mimeTypes.length < code.toNat then .error (.mimeType code)
        else .ok a.mimeTypes[code.toNat]?) (Serves build a false) := by
  refine .get_bind fun f hf => ?_
  obtain ⟨s, -, hholds⟩ := hf
  rw [hholds.mimeTypes]
  by_cases hlt : a.mimeTypes.length < code.toNat
  · simp only [if_pos hlt]
    exact .bind_error (.throw fun _ h => h)
  · simp only [if_neg hlt]
    exact .pure fun _ h => h

/-- The only code that is neither rejected nor in the list is the number of mime types. -/
theorem getMimeType_none_iff {f : FileImpl} (hf : Serves build a false f) :
    outcome (article.getMimeType build f) = .ok none ↔
      ∃ d, a.dirent build article.idx = .ok d ∧ d.getMimeType.toNat = a.mimeTypes.length := by
  have hdirent := @getDirent_runs build a article.idx
  cases hd : a.dirent build article.idx with
  | error e =>
    rw [hd] at hdirent
    have hruns : Runs (Serves build a false) (article.getMimeType build) (.error e) _ :=
      .bind_error (.bind_error hdirent)
    rw [(hruns f hf).1]
    simp
  | ok d =>
    rw [hd] at hdirent
    have hcode : Runs (Serves build a false) (article.getLibraryMimeType build)
        (.ok d.getMimeType) (Serves build a false) := hdirent.bind (.pure fun _ h => h)
    have hruns : Runs (Serves build a false) (article.getMimeType build) _ _ :=
      hcode.bind (getMimeType_serves d.getMimeType)
    rw [(hruns f hf).1]
    simp only [Except.ok.injEq, exists_eq_left']
    split_ifs with hlt
    · apply iff_of_false
      · intro h
        cases h
      · omega
    · simp only [Except.ok.injEq, List.getElem?_eq_none_iff]
      omega

/-- On an object without a failure an article is read in range exactly if what is stored of it is
in range. -/
theorem inRange_serves {f : FileImpl} (hf : Serves build a false f) :
    article.InRange build f ↔ a.StoredInRange build article.idx := by
  have hmime := @getMimeType_none_iff _ article _ _ hf
  have hdirent : Runs (Serves build a false) (article.getDirent build) _ _ :=
    @getDirent_runs build a article.idx
  have hout := (hdirent f hf).1
  have hblob (d : Dirent) (hd : a.dirent build article.idx = .ok d) (c : Cluster) :
      outcome (getCluster build d.getClusterNumber (state (article.getDirent build f))) = .ok c ↔
        a.cluster build d.getClusterNumber = .ok c := by
    rw [hd] at hdirent
    rw [(@getCluster_runs build a d.getClusterNumber _ (hdirent f hf).2).1]
  constructor
  · intro h
    constructor
    · intro d hd heq
      exact h.mimeType (hmime.mpr ⟨d, hd, heq⟩)
    · intro d c hd hr hc
      have hlt := h.blob d c (hout.trans hd) hr ((hblob d hd c).mpr hc)
      rwa [UInt32.lt_iff_toNat_lt, Archive.cluster_count hc] at hlt
  · intro h
    constructor
    · intro hnone
      obtain ⟨d, hd, heq⟩ := hmime.mp hnone
      exact h.mimeType d hd heq
    · intro d c hd hr hc
      have hd' := hout.symm.trans hd
      have hc' := (hblob d hd' c).mp hc
      rw [UInt32.lt_iff_toNat_lt, Archive.cluster_count hc']
      exact h.blob d c hd' hr hc'

/-- Behind a lost read every entry is refused, and nothing is read in or out of range. -/
theorem inRange_lost {f : FileImpl} (hf : Serves build a true f) : article.InRange build f := by
  obtain ⟨e, hlost⟩ : ∃ e, Runs (Serves build a true) (article.getDirent build) (.error e)
      (Serves build a true) := by
    have hruns := @getDirent_lost build a article.idx
    split_ifs at hruns
    · exact ⟨_, hruns⟩
    · exact ⟨_, hruns⟩
  constructor
  · have hruns : Runs (Serves build a true) (article.getMimeType build) (.error e) _ :=
      .bind_error (.bind_error hlost)
    rw [(hruns f hf).1]
    simp
  · intro d c hd
    rw [(hlost f hf).1] at hd
    cases hd

section After
variable {archive : Bytes} {direntCache clusterCache : ℕ} {f₀ : FileImpl}

/-- After any calls an article is read in range exactly if what is stored of it is in range, or if
one of the calls has lost a read. -/
theorem inRange_iff (hnew : FileImpl.new build archive direntCache clusterCache = .ok f₀)
    (calls : List Call) :
    article.InRange build (Call.after build calls f₀) ↔
      (∃ c ∈ calls, c.loses build f₀ = true) ∨
        Archive.StoredInRange build ⟨archive, f₀.header, f₀.mimeTypes⟩ article.idx := by
  have hafter := after_serves hnew calls
  by_cases hlost : calls.any (Call.loses build f₀) = true
  · rw [hlost] at hafter
    have hsome := List.any_eq_true.mp hlost
    exact iff_of_true (inRange_lost hafter) (.inl hsome)
  · rw [eq_false_of_ne_true hlost] at hafter
    have hnone := mt List.any_eq_true.mpr hlost
    rw [inRange_serves hafter, or_iff_right hnone]

end After

section Examples
open File

/-- The second blob of the cluster, behind reads of the first and of an entry that is not there. -/
theorem inRange_iff_threeEntries : ∃ f, FileImpl.new .noCodecs threeEntriesArchive 2 2 = .ok f ∧
    (InRange .noCodecs ⟨2⟩ (Call.after .noCodecs [.getDirent 0, .getCluster 0, .getDirent 3] f) ↔
      (∃ c ∈ [Call.getDirent 0, .getCluster 0, .getDirent 3], c.loses .noCodecs f = true) ∨
        Archive.StoredInRange .noCodecs ⟨threeEntriesArchive, f.header, f.mimeTypes⟩ 2) := by
  obtain ⟨f, hnew, -⟩ := threeEntriesArchive_opens
  exact ⟨f, hnew, inRange_iff hnew _⟩

/-- Without mime types the code 0 is read behind their list. -/
theorem not_inRange : ¬ ∀ (build : Build) (archive : Bytes) (direntCache clusterCache : ℕ)
    (f₀ : FileImpl) (article : Article),
    FileImpl.new build archive direntCache clusterCache = .ok f₀ →
      article.idx < f₀.getCountArticles → article.InRange build f₀ := by
  intro hall
  have hcheck : Fallible.passes (FileImpl.new .noCodecs oneEntryArchive 2 2) (fun f =>
      0 < f.getCountArticles && outcome (getMimeType .noCodecs ⟨0⟩ f) = .ok none) = true := by
    decide +kernel
  obtain ⟨f, hnew, hf⟩ := Fallible.exists_of_passes hcheck
  simp only [Bool.and_eq_true, decide_eq_true_eq] at hf
  exact (hall .noCodecs oneEntryArchive 2 2 f ⟨0⟩ hnew hf.1).mimeType hf.2

end Examples
end Article
end Zim
