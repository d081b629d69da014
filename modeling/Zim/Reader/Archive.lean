import Zim.Reader.FileImpl

/-! An archive as a function of its bytes, and the outcomes of the operations of `FileImpl`. -/
namespace Zim
open Cxx

/-- The bytes of an archive with what the constructor of `FileImpl` reads from them. -/
structure Archive where
  content : Bytes
  header : Fileheader
  mimeTypes : List Bytes

namespace Archive
variable (build : Build) (a : Archive)

/-- A stream at an offset. -/
def seek (off : UInt64) : Except ZimError IStream :=
  if off.toNat ≤ a.content.length then .ok (.ofBytes (a.content.drop off.toNat))
  else .error (.seeking off)

def offset (ptrOffset : UInt64) (idx : UInt32) : Except ZimError UInt64 := do
  let s ← a.seek (ptrOffset + 8 * idx.toUInt64)
  if (s.read 8).2.fail then .error (.format "error reading offset")
  else .ok (UInt64.ofNat (fromLittleEndian build.host (s.read 8).1))

def readDirent (off : UInt64) : Except ZimError Dirent := do
  let s ← a.seek off
  if (Dirent.read build.host .new s).2.fail then .error (.format "failed to read directory entry")
  else .ok (Dirent.read build.host .new s).1

def dirent (idx : UInt32) : Except ZimError Dirent :=
  if a.header.articleCount ≤ idx then .error (.format "article index out of range")
  else do a.readDirent build (← a.offset build a.header.urlPtrPos idx)

def indexByTitle (idx : UInt32) : Except ZimError UInt32 :=
  if a.header.articleCount ≤ idx then .error (.format "article index out of range")
  else do
    let s ← a.seek (a.header.titleIdxPos + 4 * idx.toUInt64)
    if (s.read 4).2.fail then .error (.format "error reading title index")
    else .ok (UInt32.ofNat (fromLittleEndian build.host (s.read 4).1))

def direntByTitle (idx : UInt32) : Except ZimError Dirent := do
  a.dirent build (← a.indexByTitle build idx)

def readCluster (off : UInt64) : Except ZimError Cluster := do
  let (impl, fail) ← ClusterImpl.get build (← a.seek off)
  if fail then .error (.format "error reading cluster data") else .ok ⟨some impl⟩

def cluster (idx : UInt32) : Except ZimError Cluster :=
  if a.header.clusterCount ≤ idx then .error (.format "cluster index out of range")
  else do a.readCluster build (← a.offset build a.header.clusterPtrPos idx)

def checksum : Except ZimError Bytes :=
  if a.header.hasChecksum then do
    let s ← a.seek a.header.getChecksumPos
    .ok (if (s.read 16).2.fail then [] else FileImpl.hexdigest (s.read 16).1)
  else .ok []

end Archive

namespace FileImpl
open Stateful
variable {build : Build} {a : Archive} {s : IStream}

/-- An object that has read the archive `a`, with its stream in the state `s`: what its caches
hold is what a call without them delivers. -/
structure Holds (build : Build) (a : Archive) (s : IStream) (f : FileImpl) : Prop where
  stream : f.zimFile.toIStream = s
  archive : f.zimFile.archive = a.content
  header : f.header = a.header
  mimeTypes : f.mimeTypes = a.mimeTypes
  dirents : f.direntCache.All fun idx d => a.dirent build idx = .ok d
  clusters : f.clusterCache.All fun idx c => a.cluster build idx = .ok c

theorem setBufsize_runs (n : UInt32) :
    Runs (Holds build a s) (setBufsize n) (.ok ⟨⟩) (Holds build a s) :=
  .modify fun _ h => ⟨h.stream, h.archive, h.header, h.mimeTypes, h.dirents, h.clusters⟩

theorem setStream_runs (s' : IStream) :
    Runs (Holds build a s) (setStream s') (.ok ⟨⟩) (Holds build a s') :=
  .modify fun _ h => ⟨rfl, h.archive, h.header, h.mimeTypes, h.dirents, h.clusters⟩

theorem failed_runs : Runs (Holds build a s) failed (.ok s.fail) (Holds build a s) :=
  .get_bind fun _ h => h.stream ▸ .pure fun _ h => h

theorem extract_runs {α : Type} (step : IStream → α × IStream) :
    Runs (Holds build a s) (extract step) (.ok (step s).1) (Holds build a (step s).2) := by
  refine .get_bind fun f h => ?_
  rw [h.stream]
  exact (setStream_runs _).bind (.pure fun _ h => h)

/-- An object that has read the archive `a`, with the given failure flag. -/
def Serves (build : Build) (a : Archive) (fail : Bool) (f : FileImpl) : Prop :=
  ∃ s : IStream, s.fail = fail ∧ Holds build a s f

/-- Whether a call ended because a read from the stream failed, which leaves its flag set. -/
def readFailure {α : Type} : Except ZimError α → Bool
  | .error (.format text) => text = "error reading offset" ||
      text = "failed to read directory entry" || text = "error reading title index" ||
      text = "error reading cluster data"
  | _ => false

theorem Serves.runs {α : Type} {fail : Bool} {x : M α} {r : Except ZimError α}
    {Q : FileImpl → Prop} (h : ∀ s : IStream, s.fail = fail → Runs (Holds build a s) x r Q) :
    Runs (Serves build a fail) x r Q := by
  rintro f ⟨s, hs, hf⟩
  exact h s hs f hf

theorem Serves.header {fail : Bool} {f : FileImpl} (h : Serves build a fail f) :
    f.header = a.header := by
  obtain ⟨_, _, h⟩ := h
  exact h.header

theorem Holds.serves {f : FileImpl} (h : Holds build a s f) : Serves build a s.fail f := ⟨s, rfl, h⟩

section Seek
variable {off : UInt64} {fail : Bool}

/-- A seek inside the archive keeps the failure flag. -/
theorem seekg_ok {s' : IStream} (h : a.seek off = .ok s') :
    Runs (Serves build a fail) (seekg off) (.ok ⟨⟩) (Holds build a ⟨s'.rest, fail⟩) := by
  refine Serves.runs fun s hs => .get_bind fun f hf => ?_
  subst hs
  unfold Archive.seek at h
  split at h
  next hoff =>
    cases h
    simp only [hf.stream, hf.archive, if_pos hoff]
    exact setStream_runs _
  next => cases h

theorem seekg_error {e : ZimError} (h : a.seek off = .error e) :
    Runs (Serves build a fail) (seekg off) (.error e) (Serves build a fail) := by
  refine Serves.runs fun s hs => .get_bind fun f hf => ?_
  subst hs
  unfold Archive.seek at h
  split at h
  next => cases h
  next hoff =>
    cases h
    simp only [hf.stream, hf.archive, if_neg hoff]
    exact (setStream_runs _).bind (.throw fun _ h => h.serves)

theorem Archive.seek_fail {s' : IStream} (h : a.seek off = .ok s') : s'.fail = false := by
  unfold Archive.seek at h
  split at h
  · cases h
    rfl
  · cases h

theorem seekg_good {s' : IStream} (h : a.seek off = .ok s') :
    Runs (Serves build a false) (seekg off) (.ok ⟨⟩) (Holds build a s') := by
  have hs' : s' = ⟨s'.rest, false⟩ := by rw [← Archive.seek_fail h]
  exact hs' ▸ seekg_ok h

theorem readFailure_seek {α : Type} {e : ZimError} (h : a.seek off = .error e) :
    readFailure (.error e : Except ZimError α) = false := by
  unfold Archive.seek at h
  split at h
  · cases h
  · cases h
    rfl

/-- A program that only seeks and reads one thing, the flag telling whether it could. -/
theorem seek_extract {α β : Type} {step : IStream → α × IStream} {text : String} {value : α → β}
    (htext : readFailure (.error (.format text) : Except ZimError β) = true) :
    Runs (Serves build a false)
      (do
        seekg off
        let v ← extract step
        if ← failed then throw (.format text)
        return value v)
      (do
        let s ← a.seek off
        if (step s).2.fail then .error (.format text) else .ok (value (step s).1))
      (Serves build a (readFailure (do
        let s ← a.seek off
        if (step s).2.fail then .error (.format text) else .ok (value (step s).1)))) := by
  cases hseek : a.seek off with
  | error e =>
    refine .bind_error ?_
    simp only [bind, Except.bind, readFailure_seek hseek]
    exact seekg_error hseek
  | ok s' =>
    refine (seekg_good hseek).bind ((extract_runs step).bind (failed_runs.bind ?_))
    simp only [bind, Except.bind]
    by_cases hfail : (step s').2.fail = true
    · simp only [hfail, if_true, htext]
      exact .bind_error (.throw fun _ h => ⟨_, hfail, h⟩)
    · simp only [hfail, if_false, Bool.false_eq_true]
      exact .pure fun _ h => ⟨_, eq_false_of_ne_true hfail, h⟩

end Seek

theorem getOffset_runs {ptrOffset : UInt64} {idx : UInt32} :
    Runs (Serves build a false) (getOffset build ptrOffset idx) (a.offset build ptrOffset idx)
      (Serves build a (readFailure (a.offset build ptrOffset idx))) :=
  seek_extract rfl

theorem getClusterOffset_runs {idx : UInt32} :
    Runs (Serves build a false) (getClusterOffset build idx)
      (a.offset build a.header.clusterPtrPos idx)
      (Serves build a (readFailure (a.offset build a.header.clusterPtrPos idx))) := by
  refine .get_bind fun f hf => ?_
  rw [hf.header]
  exact getOffset_runs

/-- A call that begins by comparing its index with the number of entries. -/
theorem inRange_runs {β : Type} {fail : Bool} {idx : UInt32} {rest : M β}
    {r : Except ZimError β} {Q : FileImpl → Prop}
    (hout : a.header.articleCount ≤ idx →
      r = .error (.format "article index out of range") ∧ ∀ f, Serves build a fail f → Q f)
    (hin : ¬ a.header.articleCount ≤ idx → Runs (Serves build a fail) rest r Q) :
    Runs (Serves build a fail) (do
      if (← get).getCountArticles ≤ idx then throw (.format "article index out of range")
      rest) r Q := by
  refine .get_bind fun f hf => ?_
  rw [getCountArticles, hf.header]
  by_cases hidx : a.header.articleCount ≤ idx
  · obtain ⟨rfl, hq⟩ := hout hidx
    simp only [if_pos hidx]
    exact .bind_error (.throw hq)
  · simp only [if_neg hidx]
    exact hin hidx

theorem getIndexByTitle_runs {idx : UInt32} :
    Runs (Serves build a false) (getIndexByTitle build idx) (a.indexByTitle build idx)
      (Serves build a (readFailure (a.indexByTitle build idx))) := by
  unfold Archive.indexByTitle
  refine inRange_runs (fun hidx => ?_) fun hidx => ?_
  · rw [if_pos hidx]
    exact ⟨rfl, fun _ h => h⟩
  · rw [if_neg hidx]
    refine .get_bind fun f hf => ?_
    rw [hf.header]
    exact seek_extract rfl

theorem readFailure_bind {α β : Type} {x : Except ZimError α} {f : α → Except ZimError β}
    {e : ZimError} (h : x = .error e) : readFailure (x >>= f) = readFailure x := by
  subst h
  cases e <;> rfl

theorem setBufsize_serves {fail : Bool} (n : UInt32) :
    Runs (Serves build a fail) (setBufsize n) (.ok ⟨⟩) (Serves build a fail) :=
  Serves.runs fun _ hs => (setBufsize_runs n).mono (fun _ h => h) fun _ h => ⟨_, hs, h⟩

theorem Holds.getx_dirent {f : FileImpl} (h : Holds build a s f) (idx : UInt32) :
    Holds build a s { f with direntCache := (f.direntCache.getx idx).2 } ∧
      ∀ d, (f.direntCache.getx idx).1 = some d → a.dirent build idx = .ok d := by
  obtain ⟨hfound, hcache⟩ := h.dirents.getx idx
  exact ⟨⟨h.stream, h.archive, h.header, h.mimeTypes, hcache, h.clusters⟩, hfound⟩

theorem readDirent_runs {idx : UInt32} (hidx : ¬ a.header.articleCount ≤ idx) :
    Runs (Serves build a false) (readDirent build idx) (a.dirent build idx)
      (Serves build a (readFailure (a.dirent build idx))) := by
  have hout : a.dirent build idx =
      (a.offset build a.header.urlPtrPos idx >>= a.readDirent build) := by
    rw [Archive.dirent, if_neg hidx]
  refine .get_bind fun f hf => ?_
  rw [hf.header]
  have hoffset := @getOffset_runs build a a.header.urlPtrPos idx
  cases hoff : a.offset build a.header.urlPtrPos idx with
  | error e =>
    rw [hoff] at hout hoffset
    rw [hout, readFailure_bind rfl]
    exact .bind_error hoffset
  | ok off =>
    rw [hoff] at hout hoffset
    apply hoffset.bind
    replace hout : a.dirent build idx = a.readDirent build off := hout
    rw [Archive.readDirent] at hout
    cases hseek : a.seek off with
    | error e =>
      rw [hseek] at hout
      replace hout : a.dirent build idx = .error e := hout
      rw [hout, readFailure_seek hseek]
      exact .bind_error (seekg_error hseek)
    | ok s =>
      rw [hseek] at hout
      simp only [bind, Except.bind] at hout
      refine (seekg_good hseek).bind (failed_runs.bind ?_)
      simp only [Archive.seek_fail hseek, Bool.false_eq_true, if_false]
      refine (extract_runs _).bind (failed_runs.bind ?_)
      split
      next hfail =>
        rw [if_pos hfail] at hout
        rw [hout]
        exact .bind_error (.throw fun _ h => ⟨_, hfail, h⟩)
      next hfail =>
        rw [if_neg hfail] at hout
        rw [hout]
        have hput (f : FileImpl) (h : Holds build a (Dirent.read build.host .new s).2 f) :
            Serves build a false { f with
              direntCache := f.direntCache.put idx (Dirent.read build.host .new s).1 } :=
          ⟨_, eq_false_of_ne_true hfail,
            ⟨h.stream, h.archive, h.header, h.mimeTypes, h.dirents.put hout, h.clusters⟩⟩
        exact (Runs.modify hput).bind (.pure fun _ h => h)

theorem getDirent_runs {idx : UInt32} :
    Runs (Serves build a false) (getDirent build idx) (a.dirent build idx)
      (Serves build a (readFailure (a.dirent build idx))) := by
  refine (setBufsize_serves 64).bind (inRange_runs (fun hidx => ?_) fun hidx => ?_)
  · rw [Archive.dirent, if_pos hidx]
    exact ⟨rfl, fun _ h => h⟩
  refine (Serves.runs fun s hs => failed_runs.bind ?_)
  rw [hs]
  simp only [Bool.false_eq_true, if_false]
  refine Runs.modifyGet_bind (Q := Serves build a false)
    fun f hf => ⟨⟨s, hs, (hf.getx_dirent idx).1⟩, ?_⟩
  have hfound := (hf.getx_dirent idx).2
  cases hget : (f.direntCache.getx idx).1 with
  | some d =>
    rw [hfound d hget]
    exact .pure fun _ h => h
  | none => exact readDirent_runs hidx

theorem getDirentByTitle_runs {idx : UInt32} :
    Runs (Serves build a false) (getDirentByTitle build idx) (a.direntByTitle build idx)
      (Serves build a (readFailure (a.direntByTitle build idx))) := by
  have hindex := @getIndexByTitle_runs build a idx
  unfold Archive.direntByTitle
  refine inRange_runs (fun hidx => ?_) fun hidx => ?_
  · have hout : a.indexByTitle build idx = .error (.format "article index out of range") := by
      rw [Archive.indexByTitle, if_pos hidx]
    rw [hout]
    exact ⟨rfl, fun _ h => h⟩
  · cases hout : a.indexByTitle build idx with
    | error e =>
      rw [hout] at hindex
      rw [readFailure_bind rfl]
      exact .bind_error hindex
    | ok i =>
      rw [hout] at hindex
      exact hindex.bind getDirent_runs

theorem Holds.getx_cluster {f : FileImpl} (h : Holds build a s f) (idx : UInt32) :
    Holds build a s { f with clusterCache := (f.clusterCache.getx idx).2 } ∧
      ∀ c, (f.clusterCache.getx idx).1 = some c → a.cluster build idx = .ok c := by
  obtain ⟨hfound, hcache⟩ := h.clusters.getx idx
  exact ⟨⟨h.stream, h.archive, h.header, h.mimeTypes, h.dirents, hcache⟩, hfound⟩

theorem get_error {e : ZimError} (h : ClusterImpl.get build s = .error e) :
    ∃ text, e = .runtime text := by
  simp only [ClusterImpl.get] at h
  split at h
  next => cases h
  next compression _ =>
    by_cases hc : compression.isCompressed = true
    · simp only [hc, if_true] at h
      cases hcodec : build.codec compression with
      | none =>
        rw [hcodec] at h
        cases h
        exact ⟨_, rfl⟩
      | some codec =>
        simp only [hcodec] at h
        split at h
        · cases h
          exact ⟨_, rfl⟩
        · cases h
    · simp only [hc, if_false, Bool.false_eq_true] at h
      cases h

theorem readCluster_runs {idx : UInt32} (hidx : ¬ a.header.clusterCount ≤ idx) :
    Runs (Serves build a false) (readCluster build idx) (a.cluster build idx)
      (Serves build a (readFailure (a.cluster build idx))) := by
  have hout : a.cluster build idx =
      (a.offset build a.header.clusterPtrPos idx >>= a.readCluster build) := by
    rw [Archive.cluster, if_neg hidx]
  apply (setBufsize_serves 16384).bind
  have hoffset := @getClusterOffset_runs build a idx
  cases hoff : a.offset build a.header.clusterPtrPos idx with
  | error e =>
    rw [hoff] at hout hoffset
    rw [hout, readFailure_bind rfl]
    exact .bind_error hoffset
  | ok off =>
    rw [hoff] at hout hoffset
    apply hoffset.bind
    replace hout : a.cluster build idx = a.readCluster build off := hout
    rw [Archive.readCluster] at hout
    cases hseek : a.seek off with
    | error e =>
      rw [hseek] at hout
      replace hout : a.cluster build idx = .error e := hout
      rw [hout, readFailure_seek hseek]
      exact .bind_error (seekg_error hseek)
    | ok s =>
      rw [hseek] at hout
      apply (seekg_good hseek).bind
      cases hget : ClusterImpl.get build s with
      | error e =>
        obtain ⟨text, rfl⟩ := get_error hget
        replace hout : a.cluster build idx = .error (.runtime text) := by
          rw [hout]
          simp only [bind, Except.bind, hget]
        rw [hout]
        refine .bind_error (.get_bind fun f hf => ?_)
        simp only [hf.stream, hget]
        exact .throw fun _ h => ⟨s, Archive.seek_fail hseek, h⟩
      | ok v =>
        obtain ⟨impl, fail⟩ := v
        replace hout : a.cluster build idx =
            if fail then .error (.format "error reading cluster data") else .ok ⟨some impl⟩ := by
          rw [hout]
          simp only [bind, Except.bind, hget]
        have hextract : Runs (Holds build a s) (extractCluster build) (.ok ⟨some impl⟩)
            (Holds build a { s with fail }) := by
          refine .get_bind fun f hf => ?_
          simp only [hf.stream, hget]
          exact (setStream_runs _).bind (.pure fun _ h => h)
        refine hextract.bind (failed_runs.bind ?_)
        cases fail with
        | true =>
          rw [hout]
          exact .bind_error (.throw fun _ h => ⟨_, rfl, h⟩)
        | false =>
          simp only [Bool.false_eq_true, if_false] at hout ⊢
          rw [hout]
          split
          · have hput (f : FileImpl) (h : Holds build a { s with fail := false } f) :
                Serves build a false { f with
                  clusterCache := f.clusterCache.put idx ⟨some impl⟩ } :=
              ⟨_, rfl, ⟨h.stream, h.archive, h.header, h.mimeTypes, h.dirents,
                h.clusters.put hout⟩⟩
            exact (Runs.modify hput).bind (.pure fun _ h => h)
          · exact .pure fun _ h => ⟨_, rfl, h⟩

theorem getCluster_runs {idx : UInt32} :
    Runs (Serves build a false) (getCluster build idx) (a.cluster build idx)
      (Serves build a (readFailure (a.cluster build idx))) := by
  refine .get_bind fun f hf => ?_
  rw [getCountClusters, hf.header]
  by_cases hidx : a.header.clusterCount ≤ idx
  · have hout : a.cluster build idx = .error (.format "cluster index out of range") := by
      rw [Archive.cluster, if_pos hidx]
    simp only [if_pos hidx, hout]
    exact .bind_error (.throw fun _ h => h)
  simp only [if_neg hidx]
  refine Serves.runs fun s hs => Runs.modifyGet_bind (Q := Serves build a false)
    fun f hf => ⟨⟨s, hs, (hf.getx_cluster idx).1⟩, ?_⟩
  have hfound := (hf.getx_cluster idx).2
  cases hget : (f.clusterCache.getx idx).1 with
  | some c =>
    rw [hfound c hget]
    exact .pure fun _ h => h
  | none => exact readCluster_runs hidx

theorem hexdigest_read_ne_nil (h : ¬ (s.read 16).2.fail = true) : hexdigest (s.read 16).1 ≠ [] := by
  have hread : s.read 16 = ((s.read 16).1, (s.read 16).2) := rfl
  obtain ⟨-, hlen, -⟩ := IStream.read_ok hread (eq_false_of_ne_true h)
  have hhex : (hexdigest (s.read 16).1).length = 32 := by
    simp [hexdigest, List.map_const', hlen]
  intro hnil
  rw [hnil] at hhex
  cases hhex

theorem getChecksum_runs : Runs (Serves build a false) getChecksum a.checksum
    (Serves build a (a.header.hasChecksum && decide (a.checksum = .ok []))) := by
  refine .get_bind fun f hf => ?_
  simp only [hf.header]
  unfold Archive.checksum
  by_cases hhas : a.header.hasChecksum = true
  · simp only [hhas, Bool.not_true, Bool.false_eq_true, if_false, if_true, Bool.true_and]
    cases hseek : a.seek a.header.getChecksumPos with
    | error e => exact .bind_error (seekg_error hseek)
    | ok s =>
      refine (seekg_good hseek).bind ((extract_runs _).bind (failed_runs.bind ?_))
      simp only [bind, Except.bind, Except.ok.injEq]
      by_cases hfail : (s.read 16).2.fail = true
      · simp only [hfail, if_true, decide_true]
        exact .pure fun _ h => ⟨_, hfail, h⟩
      · simp only [hfail, if_false, Bool.false_eq_true, hexdigest_read_ne_nil hfail, decide_false]
        exact .pure fun _ h => ⟨_, eq_false_of_ne_true hfail, h⟩
  · simp only [hhas, Bool.not_false, Bool.false_eq_true, if_false, if_true, Bool.false_and]
    exact .pure fun _ h => h

end FileImpl
end Zim
