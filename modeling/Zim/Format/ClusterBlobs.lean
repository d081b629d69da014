import Zim.Lib.Chunks
import Zim.Format.Cluster

/-! The blobs of a cluster: where they are, and that reading takes back what was written. -/
namespace Zim
open Cxx
namespace ClusterImpl

/-- A cluster of the given blobs. -/
def ofBlobs (compression : CompressionType) (blobs : List Blob) : ClusterImpl :=
  blobs.foldl addBlob (new.setCompression compression)

/-- The bytes of the blobs. -/
def contents (blobs : List Blob) : List Bytes := blobs.map Subtype.val

/-- The size of a cluster of the given blobs, which `getSize` knows modulo 2^32. -/
def blobsSize (blobs : List Blob) : ℕ := (blobs.length + 1) * 4 + (contents blobs).flatten.length

theorem blobsSize_mono {blobs more : List Blob} (h : blobs <+: more) :
    blobsSize blobs ≤ blobsSize more := by
  obtain ⟨rest, rfl⟩ := h
  simp only [blobsSize, contents, List.map_append, List.flatten_append, List.length_append]
  omega

section OfBlobs
variable (compression : CompressionType) (blobs : List Blob)

@[simp] theorem contents_length : (contents blobs).length = blobs.length := by simp [contents]

theorem contents_concat (blob : Blob) :
    contents (blobs ++ [blob]) = contents blobs ++ [blob.val] := by
  simp [contents]

@[simp] theorem ofBlobs_nil : ofBlobs compression [] = new.setCompression compression := rfl

theorem ofBlobs_concat (blob : Blob) :
    ofBlobs compression (blobs ++ [blob]) = (ofBlobs compression blobs).addBlob blob := by
  simp [ofBlobs]

@[simp] theorem ofBlobs_compression : (ofBlobs compression blobs).compression = compression := by
  induction blobs using List.reverseRecOn with
  | nil => rfl
  | append_singleton blobs blob ih => rw [ofBlobs_concat, addBlob, ih]

@[simp] theorem setCompression_ofBlobs :
    (ofBlobs compression blobs).setCompression compression = ofBlobs compression blobs := by
  have h := ofBlobs_compression compression blobs
  generalize ofBlobs compression blobs = cluster at h ⊢
  subst h
  rfl

theorem ofBlobs_data : (ofBlobs compression blobs).data = (contents blobs).flatten := by
  induction blobs using List.reverseRecOn with
  | nil => rfl
  | append_singleton blobs blob ih => simp [ofBlobs_concat, contents_concat, addBlob, ih]

/-- The offsets are where the blobs begin, and the end of the last one. -/
theorem ofBlobs_offsets : (ofBlobs compression blobs).offsets =
    (Chunks.starts (contents blobs) ++ [(contents blobs).flatten.length]).map UInt32.ofNat := by
  induction blobs using List.reverseRecOn with
  | nil => rfl
  | append_singleton blobs blob ih =>
    rw [ofBlobs_concat, addBlob, ih, contents_concat, Chunks.starts_concat, ofBlobs_data]
    simp

theorem ofBlobs_offsets_length :
    (ofBlobs compression blobs).offsets.length = blobs.length + 1 := by
  simp [ofBlobs_offsets]

theorem getElem?_ofBlobs_offsets {i : ℕ} (hi : i ≤ blobs.length) :
    (ofBlobs compression blobs).offsets[i]? =
      some (UInt32.ofNat (Chunks.start (contents blobs) i)) := by
  rw [ofBlobs_offsets, List.getElem?_map]
  rcases Nat.lt_or_eq_of_le hi with hlt | rfl
  · rw [List.getElem?_append_left (by simpa using hlt), Chunks.getElem?_starts (by simpa using hlt)]
    rfl
  · have hend := Chunks.start_length (contents blobs)
    rw [contents_length] at hend
    rw [List.getElem?_append_right (by simp), hend]
    simp

theorem ofBlobs_getSize :
    (ofBlobs compression blobs).getSize = UInt32.ofNat (blobsSize blobs) := by
  rw [getSize, ofBlobs_offsets_length, ofBlobs_data, blobsSize]

theorem ofBlobs_getCount :
    (ofBlobs compression blobs).getCount = UInt32.ofNat blobs.length := by
  rw [getCount, ofBlobs_offsets_length, UInt32.ofNat_add]
  simp

/-- Every blob of a cluster below 2^32 bytes is found under its number. -/
theorem getBlob_ofBlobs (hsize : blobsSize blobs < 2 ^ 32) {i : ℕ} {blob : Blob}
    (hi : blobs[i]? = some blob) :
    (ofBlobs compression blobs).getBlob (UInt32.ofNat i) = some blob.val := by
  obtain ⟨hlt, -⟩ := List.getElem?_eq_some_iff.mp hi
  have hcontent : (contents blobs)[i]? = some blob.val := by simp [contents, hi]
  have hnext := Chunks.start_succ hcontent
  have hend := Chunks.start_le (contents blobs) (i + 1)
  unfold blobsSize at hsize
  have hindex : (UInt32.ofNat i).toNat = i := UInt32.toNat_ofNat_of_lt' (by
    simp only [UInt32.size]
    omega)
  have hindex' : (UInt32.ofNat i + 1).toNat = i + 1 := by
    rw [UInt32.toNat_add, hindex]
    simp only [UInt32.toNat_one]
    omega
  have hfirst : (UInt32.ofNat (Chunks.start (contents blobs) i)).toNat =
      Chunks.start (contents blobs) i := UInt32.toNat_ofNat_of_lt' (by
    simp only [UInt32.size]
    omega)
  have hdiff : (UInt32.ofNat (Chunks.start (contents blobs) (i + 1)) -
      UInt32.ofNat (Chunks.start (contents blobs) i)).toNat = blob.val.length := by
    rw [hnext, UInt32.ofNat_add, UInt32.add_comm, UInt32.add_sub_cancel]
    exact UInt32.toNat_ofNat_of_lt' blob.property
  rw [getBlob, hindex, hindex', getElem?_ofBlobs_offsets _ _ hlt.le,
    getElem?_ofBlobs_offsets _ _ hlt]
  simp only [hdiff, hfirst, ofBlobs_data, Chunks.drop_start hcontent, List.take_left]
  rw [if_pos (by omega)]

end OfBlobs

section ReadWrite
variable (host : ByteOrder)

theorem readOffsets_append (a : UInt32) (os : List UInt32) (rest : Bytes) :
    readOffsets host a os.length
        ⟨os.flatMap (fun o => sizeTypeBytes host (o + a)) ++ rest, false⟩ =
      (os, ⟨rest, false⟩) := by
  induction os with
  | nil => rfl
  | cons o os ih =>
    have hread := @IStream.read_append (sizeTypeBytes host (o + a))
      (os.flatMap (fun o => sizeTypeBytes host (o + a)) ++ rest) 4 (by simp)
    simp [readOffsets, hread, ih]

/-- Reading takes back what was written, if the offsets end with the size of the data. -/
theorem read_write {c : ClusterImpl} {os : List UInt32} (hoffsets : c.offsets = 0 :: os)
    (hlast : c.offsets.getLast? = some (UInt32.ofNat c.data.length))
    (hsize : c.offsets.length * 4 + c.data.length < 2 ^ 32) (c' : ClusterImpl) (rest : Bytes) :
    c'.read host ⟨c.write host ++ rest, false⟩ =
      ({ c with compression := c'.compression }, ⟨rest, false⟩) := by
  obtain ⟨compression, offsets, data⟩ := c
  simp only at hoffsets hlast hsize
  subst hoffsets
  have hdata : (UInt32.ofNat data.length).toNat = data.length :=
    UInt32.toNat_ofNat_of_lt' (by simp only [UInt32.size]; omega)
  generalize ha : UInt32.ofNat ((0 :: os).length * 4) = a
  have hturns : (a / 4 - 1).toNat = os.length := by
    have ha' : a.toNat = (os.length + 1) * 4 := by
      rw [← ha]
      exact UInt32.toNat_ofNat_of_lt' (by
        simp only [UInt32.size, List.length_cons] at hsize ⊢
        omega)
    have hdiv : (a / 4).toNat = os.length + 1 := by
      rw [UInt32.toNat_div, ha']
      exact Nat.mul_div_cancel _ (by decide)
    rw [UInt32.toNat_sub_of_le _ _ (UInt32.le_iff_toNat_le.mpr (by simp [hdiv])), hdiv]
    rfl
  have hread := @IStream.read_append (sizeTypeBytes host (0 + a))
    (os.flatMap (fun o => sizeTypeBytes host (o + a)) ++ (data ++ rest)) 4 (by simp)
  have hwrite : write host ⟨compression, 0 :: os, data⟩ ++ rest = sizeTypeBytes host (0 + a) ++
      (os.flatMap (fun o => sizeTypeBytes host (o + a)) ++ (data ++ rest)) := by
    rw [write, ha, List.flatMap_cons, List.append_assoc, List.append_assoc]
  rw [hwrite, read, hread]
  simp only [Bool.false_eq_true, ↓reduceIte, fromLittleEndian_eq, decode_sizeTypeBytes,
    UInt32.zero_add, hturns, readOffsets_append]
  cases os with
  | nil =>
    -- without blobs nothing is read behind the only offset
    have hempty : data = [] := by
      simp only [List.getLast?_singleton, Option.some.injEq] at hlast
      rw [← hlast] at hdata
      exact List.length_eq_zero_iff.mp hdata.symm
    simp [hempty]
  | cons o os =>
    have hend : (o :: os).getLast (List.cons_ne_nil _ _) = UInt32.ofNat data.length := by
      rw [List.getLast?_cons_cons, List.getLast?_eq_some_getLast (List.cons_ne_nil _ _)] at hlast
      exact Option.some.inj hlast
    rw [dif_pos (List.cons_ne_nil _ _), hend, UInt32.sub_zero, hdata, readData,
      IStream.read_append rfl]
    simp [List.rightpad]

end ReadWrite

theorem write_host (c : ClusterImpl) (host host' : ByteOrder) : c.write host = c.write host' := by
  simp [write, sizeTypeBytes]

/-- The host that reads may be another one, and what its cluster held before does not matter. -/
theorem read_write_ofBlobs (host host' : ByteOrder) (compression : CompressionType)
    {blobs : List Blob} (hsize : blobsSize blobs < 2 ^ 32) (c : ClusterImpl) (rest : Bytes) :
    (c.setCompression compression).read host
        ⟨(ofBlobs compression blobs).write host' ++ rest, false⟩ =
      (ofBlobs compression blobs, ⟨rest, false⟩) := by
  have hfirst := getElem?_ofBlobs_offsets compression blobs (Nat.zero_le _)
  have hlast : (ofBlobs compression blobs).offsets.getLast? =
      some (UInt32.ofNat (ofBlobs compression blobs).data.length) := by
    simp [ofBlobs_offsets, ofBlobs_data]
  have hlen : (ofBlobs compression blobs).offsets.length * 4 +
      (ofBlobs compression blobs).data.length < 2 ^ 32 := by
    rwa [ofBlobs_offsets_length, ofBlobs_data]
  obtain ⟨os, hos⟩ : ∃ os, (ofBlobs compression blobs).offsets = 0 :: os := by
    cases h : (ofBlobs compression blobs).offsets with
    | nil => simp [h] at hfirst
    | cons o os =>
      rw [h] at hfirst
      simp only [List.getElem?_cons_zero, Chunks.start_zero, Option.some.injEq] at hfirst
      exact ⟨os, by rw [hfirst]; rfl⟩
  rw [write_host _ host' host, read_write host hos hlast hlen]
  have hcompression : (c.setCompression compression).compression =
      (ofBlobs compression blobs).compression := by simp [setCompression]
  rw [hcompression]

/-- The reader's operator takes back what the writer's operator has put, whatever follows. -/
theorem get_put {build : Build} {compression : CompressionType} {blobs : List Blob} {bs : Bytes}
    (hput : (ofBlobs compression blobs).put build = .ok bs) (hsize : blobsSize blobs < 2 ^ 32)
    (hkept : (ofBlobs compression blobs).KeptBy build) (rest : Bytes) :
    get build ⟨bs ++ rest, false⟩ = .ok (ofBlobs compression blobs, false) := by
  unfold put at hput
  rw [ofBlobs_compression] at hput
  by_cases hc : compression.isCompressed = true
  · rw [if_pos hc] at hput
    cases hcodec : build.codec compression with
    | none => simp [hcodec] at hput
    | some codec =>
      rw [hcodec] at hput
      cases hput
      obtain ⟨more, hmore⟩ := hkept (by rwa [ofBlobs_compression]) codec
        (by rwa [ofBlobs_compression]) rest
      have hread := read_write_ofBlobs build.host build.host compression hsize new more
      rw [hmore] at hread
      simp [get, hc, hcodec, IStream.ofBytes, hread]
  · rw [if_neg hc] at hput
    cases hput
    simp [get, hc, read_write_ofBlobs build.host build.host compression hsize]

theorem put_ne_nil {build : Build} {c : ClusterImpl} {bs : Bytes} (h : c.put build = .ok bs) :
    bs ≠ [] := by
  unfold put at h
  split at h
  · split at h
    · cases h
    · cases h
      exact List.cons_ne_nil _ _
  · cases h
    exact List.cons_ne_nil _ _

end ClusterImpl
end Zim
