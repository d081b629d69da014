import Mathlib.Algebra.Order.BigOperators.Group.List
import Zim.Writer.Dirents
import Zim.Writer.Clusters

/-! The parts of an archive and the positions in its header. -/
namespace Zim.Writer
open Cxx

/-- The parts of an archive, in the order in which `write` sends them. -/
structure Parts where
  header : Bytes
  mimeList : Bytes
  urlPtrs : Bytes
  titleIdx : Bytes
  entries : List Bytes
  clusterPtrs : Bytes
  clusterData : Bytes

namespace Parts
variable (p : Parts)

/-- Everything but the digest. -/
def body : Bytes :=
  p.header ++ p.mimeList ++ p.urlPtrs ++ p.titleIdx ++ p.entries.flatten ++ p.clusterPtrs ++
    p.clusterData

/-- The position at which the url pointers are written. -/
def urlPtrStart : ℕ := (p.header ++ p.mimeList).length

/-- The position at which the title index is written. -/
def titleIdxStart : ℕ := p.urlPtrStart + p.urlPtrs.length

/-- The position at which the first entry is written. -/
def entriesStart : ℕ := p.titleIdxStart + p.titleIdx.length

/-- The position at which the cluster pointers are written. -/
def clusterPtrStart : ℕ := p.entriesStart + p.entries.flatten.length

/-- The position at which the clusters are written. -/
def clusterDataStart : ℕ := p.clusterPtrStart + p.clusterPtrs.length

theorem body_length : p.body.length = p.clusterDataStart + p.clusterData.length := by
  simp only [body, clusterDataStart, clusterPtrStart, entriesStart, titleIdxStart, urlPtrStart,
    List.length_append]

/-- What begins at the position of an entry is this entry. -/
theorem drop_entry {i : ℕ} {entry : Bytes} (h : p.entries[i]? = some entry) (digest : Bytes) :
    ∃ rest, (p.body ++ digest).drop (p.entriesStart + Chunks.start p.entries i) =
      entry ++ rest := by
  have hfront : (p.header ++ p.mimeList ++ p.urlPtrs ++ p.titleIdx).length = p.entriesStart := by
    simp only [entriesStart, titleIdxStart, urlPtrStart, List.length_append]
  have hbody : p.body ++ digest = (p.header ++ p.mimeList ++ p.urlPtrs ++ p.titleIdx) ++
      (p.entries.flatten ++ (p.clusterPtrs ++ p.clusterData ++ digest)) := by
    simp only [body, List.append_assoc]
  rw [hbody, ← hfront, List.drop_length_add_append,
    List.drop_append_of_le_length (Chunks.start_le _ _), Chunks.drop_start h, List.append_assoc]
  exact ⟨_, rfl⟩

/-- What is behind the cluster pointers. -/
theorem drop_clusterData (n : ℕ) :
    p.body.drop (p.clusterDataStart + n) = p.clusterData.drop n := by
  have hfront : (p.header ++ p.mimeList ++ p.urlPtrs ++ p.titleIdx ++ p.entries.flatten ++
      p.clusterPtrs).length = p.clusterDataStart := by
    simp only [clusterDataStart, clusterPtrStart, entriesStart, titleIdxStart, urlPtrStart,
      List.length_append]
  rw [body, ← hfront, List.drop_length_add_append]

end Parts

namespace ZimCreator
variable (build : Build) (md5 : Bytes → { bs : Bytes // bs.length = 16 }) (zc : ZimCreator)

/-- The offsets of the entries as the loop over the url pointers counts them. -/
def urlOffsets (off : UInt64) : List Dirent → List UInt64
  | [] => []
  | di :: ds => off :: urlOffsets (off + di.getDirentSize.toUInt64) ds

/-- The offset behind the entries. -/
def endOffset (off : UInt64) (ds : List Dirent) : UInt64 :=
  ds.foldl (fun off di => off + di.getDirentSize.toUInt64) off

/-- The parts that `write` makes of a creator and the content of the temporary file. -/
def parts (tmpfile : Bytes) : Parts where
  header := zc.header.write build.host
  mimeList := zc.mimeTypes.flatMap (fun mimeType => mimeType ++ [0]) ++ [0]
  urlPtrs := (urlOffsets zc.indexPos zc.dirents).flatMap (offsetTypeBytes build.host)
  titleIdx := zc.titleIdx.flatMap (sizeTypeBytes build.host)
  entries := zc.dirents.map fun di => di.toDirent.write build.host
  clusterPtrs := zc.clusterOffsets.flatMap fun o => offsetTypeBytes build.host
    (endOffset zc.indexPos zc.dirents + UInt64.ofNat zc.clusterOffsets.length * 8 + o)
  clusterData := if zc.isEmpty then [] else tmpfile

section Write
variable {build md5 zc} {tmpfile content : Bytes}

theorem writeUrlPtrs_appends {out out₁ : OStream} {bs : Bytes} (h : OStream.Appends out out₁ bs)
    (off : UInt64) (ds : List Dirent) :
    OStream.Appends out (writeUrlPtrs build out₁ off ds).1
        (bs ++ (urlOffsets off ds).flatMap (offsetTypeBytes build.host)) ∧
      (writeUrlPtrs build out₁ off ds).2 = endOffset off ds := by
  induction ds generalizing out₁ bs off with
  | nil => exact ⟨by simpa [urlOffsets, writeUrlPtrs] using h, rfl⟩
  | cons di ds ih =>
    obtain ⟨happends, hoff⟩ := ih (h.write (offsetTypeBytes build.host off))
      (off + di.getDirentSize.toUInt64)
    refine ⟨?_, hoff⟩
    rw [urlOffsets, List.flatMap_cons, ← List.append_assoc]
    exact happends

theorem insertFile_appends {out out₁ : OStream} {bs : Bytes} (h : OStream.Appends out out₁ bs)
    (content : Bytes) : OStream.Appends out (insertFile out₁ content) (bs ++ content) := by
  unfold insertFile
  split_ifs
  · exact ⟨nofun, nofun, nofun⟩
  · exact h.write content

/-- The end of `write`, behind the cluster pointers. -/
theorem finish_ok {out : OStream} {front : Bytes} (hout : OStream.Appends .empty out front)
    (h : (let out := if zc.isEmpty then out else insertFile out tmpfile
      if out.fail then .error (.runtime "failed to write zimfile")
      else .ok (out.bytes ++ (md5 out.bytes).val) : Except ZimError Bytes) = .ok content) :
    content = front ++ (if zc.isEmpty then [] else tmpfile) ++
        (md5 (front ++ if zc.isEmpty then [] else tmpfile)).val ∧
      (front ++ if zc.isEmpty then [] else tmpfile).length ≤ maxOffset := by
  have hdata : OStream.Appends .empty (if zc.isEmpty then out else insertFile out tmpfile)
      (front ++ if zc.isEmpty then [] else tmpfile) := by
    split_ifs
    · rwa [List.append_nil]
    · exact insertFile_appends hout tmpfile
  simp only at h
  generalize (if zc.isEmpty then out else insertFile out tmpfile) = out' at hdata h
  split at h
  next => cases h
  next hgood =>
    have hgood' := eq_false_of_ne_true hgood
    have hbytes := hdata.bytes hgood'
    rw [OStream.empty, List.nil_append] at hbytes
    have hsize := hdata.size hgood' (Nat.zero_le _)
    cases h
    rw [hbytes] at hsize ⊢
    exact ⟨rfl, hsize⟩

/-- `write` sends the parts one after the other, and the digest of all of them at the end. -/
theorem write_ok (h : zc.write build md5 tmpfile = .ok content) :
    content = (zc.parts build tmpfile).body ++ (md5 (zc.parts build tmpfile).body).val ∧
      (zc.parts build tmpfile).body.length ≤ maxOffset := by
  have hheader := (OStream.Appends.refl .empty).write (zc.header.write build.host)
  have hmime := (hheader.foldl (fun out mimeType => (out.write mimeType).write [0])
    (fun mimeType => mimeType ++ [0]) (fun out₁ bs mimeType h => by
      rw [← List.append_assoc]
      exact (h.write mimeType).write [0]) zc.mimeTypes).write [0]
  obtain ⟨hurl, hoff⟩ := @writeUrlPtrs_appends build _ _ _ hmime zc.indexPos zc.dirents
  have htitle := hurl.foldl (fun out v => out.write (sizeTypeBytes build.host v))
    (sizeTypeBytes build.host) (fun _ _ _ h => h.write _) zc.titleIdx
  have hentries := htitle.foldl (fun out (di : Dirent) => out.write (di.toDirent.write build.host))
    (fun di => di.toDirent.write build.host) (fun _ _ _ h => h.write _) zc.dirents
  have hptrs := hentries.foldl (fun out o => out.write (offsetTypeBytes build.host
      (endOffset zc.indexPos zc.dirents + UInt64.ofNat zc.clusterOffsets.length * 8 + o)))
    (fun o => offsetTypeBytes build.host
      (endOffset zc.indexPos zc.dirents + UInt64.ofNat zc.clusterOffsets.length * 8 + o))
    (fun _ _ _ h => h.write _) zc.clusterOffsets
  unfold write at h
  simp only [hoff] at h
  have hfinish := finish_ok hptrs h
  simpa [parts, Parts.body, List.flatMap_def] using hfinish

end Write

/-- The header has the counts and positions of `fillHeader`. -/
structure Filled (zc : ZimCreator) : Prop where
  articleCount : zc.header.articleCount = UInt32.ofNat zc.dirents.length
  urlPtrPos : zc.header.urlPtrPos = zc.urlPtrPos
  mimeListPos : zc.header.mimeListPos = mimeListPos
  titleIdxPos : zc.header.titleIdxPos = zc.titleIdxPos
  clusterCount : zc.header.clusterCount = UInt32.ofNat zc.clusterOffsets.length
  clusterPtrPos : zc.header.clusterPtrPos = zc.clusterPtrPos
  checksumPos : zc.header.checksumPos = zc.checksumPos

theorem fillHeader_filled (src : ArticleSource) : (zc.fillHeader src).Filled :=
  ⟨rfl, rfl, rfl, rfl, rfl, rfl, rfl⟩

section Sums

theorem foldl_add_toNat {α : Type} (f : α → UInt64) (l : List α) (s : UInt64)
    (h : s.toNat + (l.map fun a => (f a).toNat).sum < 2 ^ 64) :
    (l.foldl (fun s a => s + f a) s).toNat = s.toNat + (l.map fun a => (f a).toNat).sum := by
  induction l generalizing s with
  | nil => simp
  | cons a l ih =>
    simp only [List.map_cons, List.sum_cons] at h
    have hadd : (s + f a).toNat = s.toNat + (f a).toNat := by
      rw [UInt64.toNat_add]
      omega
    rw [List.foldl_cons, ih _ (by omega), hadd, List.map_cons, List.sum_cons]
    omega

/-- Terms that are no smaller have a sum that is no greater only if they are equal. -/
theorem eq_of_sum_le {α : Type} {f g : α → ℕ} {l : List α} (h : ∀ a ∈ l, f a ≤ g a)
    (hsum : (l.map g).sum ≤ (l.map f).sum) : ∀ a ∈ l, f a = g a := by
  intro a ha
  by_contra hne
  have hlt := List.sum_lt_sum f g h ⟨a, ha, lt_of_le_of_ne (h a ha) hne⟩
  exact absurd hsum (not_le.mpr hlt)

end Sums

section Lengths
variable {build zc} {tmpfile : Bytes}

/-- The bytes that `getDirentSize` counts. -/
def countedSize (ds : List Dirent) : ℕ := (ds.map fun di => di.size % 2 ^ 32).sum

theorem getDirentSize_toUInt64 (d : Dirent) :
    d.getDirentSize.toUInt64.toNat = d.size % 2 ^ 32 := by
  rw [Zim.Dirent.getDirentSize_eq]
  simp

theorem endOffset_toNat {off : UInt64} {ds : List Dirent}
    (h : off.toNat + countedSize ds < 2 ^ 64) :
    (endOffset off ds).toNat = off.toNat + countedSize ds := by
  simp only [countedSize, ← getDirentSize_toUInt64] at h ⊢
  exact foldl_add_toNat _ ds off h

theorem entries_length : (zc.parts build tmpfile).entries.flatten.length =
    (zc.dirents.map fun di => di.size).sum := by
  simp only [parts, List.length_flatten, List.map_map]
  congr 1
  exact List.map_congr_left fun di _ => Zim.Dirent.write_length build.host di.toDirent

theorem countedSize_le : countedSize zc.dirents ≤ (zc.dirents.map fun di => di.size).sum :=
  List.sum_le_sum fun _ _ => Nat.mod_le _ _

theorem urlOffsets_length (off : UInt64) (ds : List Dirent) :
    (urlOffsets off ds).length = ds.length := by
  induction ds generalizing off with
  | nil => rfl
  | cons d ds ih => simp [urlOffsets, ih]

theorem flatMap_length {α : Type} {f : α → Bytes} {w : ℕ} (hf : ∀ a, (f a).length = w)
    (l : List α) : (l.flatMap f).length = l.length * w := by
  induction l with
  | nil => simp
  | cons a l ih =>
    rw [List.flatMap_cons, List.length_append, hf, ih, List.length_cons]
    ring

theorem urlPtrs_length : (zc.parts build tmpfile).urlPtrs.length = zc.dirents.length * 8 := by
  rw [parts, flatMap_length (offsetTypeBytes_length build.host), urlOffsets_length]

theorem titleIdx_length : (zc.parts build tmpfile).titleIdx.length = zc.titleIdx.length * 4 :=
  flatMap_length (sizeTypeBytes_length build.host) _

theorem clusterPtrs_length :
    (zc.parts build tmpfile).clusterPtrs.length = zc.clusterOffsets.length * 8 :=
  flatMap_length (fun _ => offsetTypeBytes_length build.host _) _

theorem mimeList_length : (zc.parts build tmpfile).mimeList.length =
    1 + (zc.mimeTypes.map fun mimeType => mimeType.length + 1).sum := by
  simp only [parts, List.length_append, List.length_flatMap, List.length_singleton]
  exact Nat.add_comm _ _

theorem mimeListSize_toNat (h : (zc.parts build tmpfile).mimeList.length < 2 ^ 64) :
    zc.mimeListSize.toNat = (zc.parts build tmpfile).mimeList.length := by
  rw [mimeList_length] at h ⊢
  have hterm : ∀ m ∈ zc.mimeTypes, (UInt64.ofNat m.length + 1).toNat = m.length + 1 := by
    intro m hm
    have hle : m.length + 1 ≤ (zc.mimeTypes.map fun m => m.length + 1).sum :=
      List.single_le_sum (fun _ _ => Nat.zero_le _) _ (List.mem_map_of_mem hm)
    have hlen : (UInt64.ofNat m.length).toNat = m.length :=
      UInt64.toNat_ofNat_of_lt' (by simp only [UInt64.size]; omega)
    rw [UInt64.toNat_add, hlen]
    simp only [UInt64.reduceToNat]
    omega
  have hsum := congrArg List.sum (List.map_congr_left hterm)
  have hfold := foldl_add_toNat (fun m : Bytes => UInt64.ofNat m.length + 1) zc.mimeTypes 1
    (by rw [hsum]; exact h)
  rw [hsum] at hfold
  exact hfold

end Lengths

section Positions
variable {build zc} {tmpfile : Bytes}

/-- What is known of a creator whose archive is written. -/
structure Sized (build : Build) (zc : ZimCreator) (tmpfile : Bytes) : Prop where
  body : (zc.parts build tmpfile).body.length ≤ maxOffset
  titleIdx : zc.titleIdx.length = zc.dirents.length

/-- The numbers of bytes in front of the clusters. -/
theorem Sized.starts (h : Sized build zc tmpfile) :
    (zc.parts build tmpfile).urlPtrStart = 80 + (zc.parts build tmpfile).mimeList.length ∧
    (zc.parts build tmpfile).titleIdxStart =
      (zc.parts build tmpfile).urlPtrStart + zc.dirents.length * 8 ∧
    (zc.parts build tmpfile).entriesStart =
      (zc.parts build tmpfile).titleIdxStart + zc.dirents.length * 4 ∧
    (zc.parts build tmpfile).clusterPtrStart =
      (zc.parts build tmpfile).entriesStart + (zc.dirents.map fun di => di.size).sum ∧
    (zc.parts build tmpfile).clusterDataStart =
      (zc.parts build tmpfile).clusterPtrStart + zc.clusterOffsets.length * 8 ∧
    (zc.parts build tmpfile).clusterDataStart + (zc.parts build tmpfile).clusterData.length ≤
      maxOffset := by
  refine ⟨?_, ?_, ?_, ?_, ?_, ?_⟩
  · rw [Parts.urlPtrStart, List.length_append]
    simp [parts, Fileheader.size]
  · rw [Parts.titleIdxStart, urlPtrs_length]
  · rw [Parts.entriesStart, titleIdx_length, h.titleIdx]
  · rw [Parts.clusterPtrStart, entries_length]
  · rw [Parts.clusterDataStart, clusterPtrs_length]
  · rw [← Parts.body_length]
    exact h.body

/-- The positions that the header gets, the counts being taken modulo 2^32. -/
theorem Sized.positions (h : Sized build zc tmpfile) :
    zc.urlPtrPos.toNat = (zc.parts build tmpfile).urlPtrStart ∧
    zc.titleIdxPos.toNat = zc.urlPtrPos.toNat + zc.dirents.length % 2 ^ 32 * 8 ∧
    zc.indexPos.toNat = zc.titleIdxPos.toNat + zc.dirents.length % 2 ^ 32 * 4 ∧
    zc.clusterPtrPos.toNat = zc.indexPos.toNat + countedSize zc.dirents := by
  obtain ⟨hurl, htitle, hentries, hptrs, hdata, hend⟩ := h.starts
  have hcounted := @countedSize_le zc
  have hn := Nat.mod_le zc.dirents.length (2 ^ 32)
  have hmime := @mimeListSize_toNat build zc tmpfile
  generalize hM : (zc.parts build tmpfile).mimeList.length = M at *
  simp only [maxOffset] at hend
  have harticles : zc.articleCount.toUInt64.toNat = zc.dirents.length % 2 ^ 32 := by
    simp [articleCount]
  have hurlPos : zc.urlPtrPos.toNat = 80 + M := by
    rw [urlPtrPos, UInt64.toNat_add, hmime (by omega)]
    simp only [mimeListPos, Fileheader.size, UInt64.reduceOfNat, UInt64.reduceToNat]
    omega
  have htitlePos : zc.titleIdxPos.toNat = 80 + M + zc.dirents.length % 2 ^ 32 * 8 := by
    rw [titleIdxPos, urlPtrSize, UInt64.toNat_add, UInt64.toNat_mul, harticles, hurlPos]
    simp only [UInt64.reduceToNat]
    omega
  have hindexPos : zc.indexPos.toNat = 80 + M + zc.dirents.length % 2 ^ 32 * 12 := by
    rw [indexPos, titleIdxSize, UInt64.toNat_add, UInt64.toNat_mul, harticles, htitlePos]
    simp only [UInt64.reduceToNat]
    omega
  have hindexSize : zc.indexSize.toNat = countedSize zc.dirents := by
    have hend := @endOffset_toNat 0 zc.dirents (by simp only [UInt64.reduceToNat]; omega)
    rw [UInt64.toNat_zero, Nat.zero_add] at hend
    exact hend
  have hptrPos : zc.clusterPtrPos.toNat =
      80 + M + zc.dirents.length % 2 ^ 32 * 12 + countedSize zc.dirents := by
    rw [clusterPtrPos, UInt64.toNat_add, hindexSize, hindexPos]
    omega
  exact ⟨by omega, by omega, by omega, by omega⟩

theorem Sized.checksumPos (h : Sized build zc tmpfile)
    (hclusters : zc.clustersSize.toNat = tmpfile.length) (htmp : tmpfile.length ≤ maxOffset) :
    zc.checksumPos.toNat =
      zc.clusterPtrPos.toNat + zc.clusterOffsets.length % 2 ^ 32 * 8 + tmpfile.length := by
  obtain ⟨-, -, hentries, hptrs, hdata, hend⟩ := h.starts
  obtain ⟨hurl', htitle', hindex', hptrs'⟩ := h.positions
  have hcounted := @countedSize_le zc
  have hn := Nat.mod_le zc.dirents.length (2 ^ 32)
  have hc := Nat.mod_le zc.clusterOffsets.length (2 ^ 32)
  simp only [maxOffset] at hend htmp
  have hcount : zc.clusterCount.toUInt64.toNat = zc.clusterOffsets.length % 2 ^ 32 := by
    simp [clusterCount]
  have htitle := h.starts.2.1
  rw [ZimCreator.checksumPos, clusterPtrSize, UInt64.toNat_add, UInt64.toNat_add, UInt64.toNat_mul,
    hcount, hclusters]
  simp only [UInt64.reduceToNat]
  omega

end Positions

end ZimCreator
end Zim.Writer
