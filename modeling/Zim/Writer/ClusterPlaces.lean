import Zim.Writer.Clusters

/-! Every article is found in the cluster, and under the number, that its entry names. -/
namespace Zim.Writer
open Cxx
namespace ZimCreator
variable {build : Build} {getData : Bytes → Blob} {zc zc' : ZimCreator} {tmpfile : Bytes}
    {groups : List (List Dirent)} {chunks : List Bytes}

theorem mem_placed {d : Dirent} : d ∈ placed groups ↔ ∃ k group b e, groups[k]? = some group ∧
    group[b]? = some e ∧ d = place k b e := by
  unfold placed
  constructor
  · intro h
    obtain ⟨l, hl, hd⟩ := List.mem_flatten.mp h
    obtain ⟨k, hk, rfl⟩ := List.mem_mapIdx.mp hl
    obtain ⟨b, hb, rfl⟩ := List.mem_mapIdx.mp hd
    exact ⟨k, groups[k], b, groups[k][b], List.getElem?_eq_getElem hk,
      List.getElem?_eq_getElem hb, rfl⟩
  · rintro ⟨k, group, b, e, hk, hb, rfl⟩
    obtain ⟨hk', rfl⟩ := List.getElem?_eq_some_iff.mp hk
    obtain ⟨hb', rfl⟩ := List.getElem?_eq_some_iff.mp hb
    exact List.mem_flatten.mpr ⟨_, List.mem_mapIdx.mpr ⟨k, hk', rfl⟩,
      List.mem_mapIdx.mpr ⟨b, hb', rfl⟩⟩

/-- Places in the order of the entries grow lexicographically. -/
theorem placed_pairwise {R : Dirent → Dirent → Prop}
    (hblob : ∀ k group b b' e e', groups[k]? = some group → group[b]? = some e →
      group[b']? = some e' → b < b' →
      R (place k b e) (place k b' e'))
    (hcluster : ∀ k k' group group' b b' e e', groups[k]? = some group → groups[k']? = some group' →
      group[b]? = some e → group'[b']? = some e' → k < k' →
      R (place k b e) (place k' b' e')) :
    (placed groups).Pairwise R := by
  unfold placed
  rw [List.pairwise_flatten]
  constructor
  · intro l hl
    obtain ⟨k, hk, rfl⟩ := List.mem_mapIdx.mp hl
    rw [List.pairwise_iff_getElem]
    intro b b' hb hb' hlt
    simp only [List.getElem_mapIdx]
    rw [List.length_mapIdx] at hb hb'
    exact hblob k _ b b' _ _ (List.getElem?_eq_getElem hk) (List.getElem?_eq_getElem hb)
      (List.getElem?_eq_getElem hb') hlt
  · rw [List.pairwise_iff_getElem]
    intro k k' hk hk' hlt d hd d' hd'
    rw [List.getElem_mapIdx] at hd hd'
    rw [List.length_mapIdx] at hk hk'
    obtain ⟨b, hb, rfl⟩ := List.mem_mapIdx.mp hd
    obtain ⟨b', hb', rfl⟩ := List.mem_mapIdx.mp hd'
    exact hcluster k k' _ _ b b' _ _ (List.getElem?_eq_getElem hk) (List.getElem?_eq_getElem hk')
      (List.getElem?_eq_getElem hb) (List.getElem?_eq_getElem hb') hlt

theorem ofNat_inj {a b : ℕ} (ha : a < 2 ^ 32) (hb : b < 2 ^ 32) :
    UInt32.ofNat a = UInt32.ofNat b ↔ a = b := by
  rw [← UInt32.toNat_inj, UInt32.toNat_ofNat_of_lt' ha, UInt32.toNat_ofNat_of_lt' hb]

theorem groupSize_length {group : List Dirent} (h : groupSize getData group < 2 ^ 32) :
    group.length < 2 ^ 32 := by
  simp only [groupSize, ClusterImpl.blobsSize, blobs, List.length_map] at h
  omega

/-- The clusters of articles that are not to be compressed need no compressor. -/
theorem groupCluster_keptBy {compression : CompressionType}
    (hlossless : build.Lossless compression) (group : List Dirent) :
    (groupCluster getData compression group).KeptBy build := by
  by_cases hall : group.all (fun d => d.compress) = true
  · refine ClusterImpl.keptBy_of_lossless ?_
    rwa [groupCluster, if_pos hall, ClusterImpl.ofBlobs_compression]
  · refine ClusterImpl.keptBy_of_not_compressed ?_
    rw [groupCluster, if_neg hall, ClusterImpl.ofBlobs_compression]
    rfl

/-- The cluster of a group is read back at its offset in the temporary file. -/
theorem Packed.get_cluster (h : Packed build getData zc zc' tmpfile groups chunks) {k : ℕ}
    {group : List Dirent} (hk : groups[k]? = some group)
    (hsize : groupSize getData group < 2 ^ 32)
    (hkept : (groupCluster getData zc.compression group).KeptBy build) :
    ∃ off, zc'.clusterOffsets[k]? = some off ∧ off.toNat ≤ tmpfile.length ∧
      ∀ rest, ClusterImpl.get build ⟨tmpfile.drop off.toNat ++ rest, false⟩ =
        .ok (groupCluster getData zc.compression group, false) := by
  obtain ⟨hlt, rfl⟩ := List.getElem?_eq_some_iff.mp hk
  have hlt' : k < chunks.length := h.serialized.length_eq ▸ hlt
  have hput := List.Forall₂.get h.serialized hlt hlt'
  have hstart := Chunks.start_le chunks k
  have hmax : chunks.flatten.length ≤ maxOffset := h.content ▸ h.size
  have hoff : (UInt64.ofNat (Chunks.start chunks k)).toNat = Chunks.start chunks k :=
    UInt64.toNat_ofNat_of_lt' (by simp only [UInt64.size, maxOffset] at *; omega)
  refine ⟨UInt64.ofNat (Chunks.start chunks k), ?_, ?_, fun rest => ?_⟩
  · rw [h.offsets, List.getElem?_map, Chunks.getElem?_starts hlt']
    rfl
  · rwa [hoff, h.content]
  · rw [hoff, h.content, Chunks.drop_start (List.getElem?_eq_getElem hlt'), List.append_assoc]
    exact ClusterImpl.get_put hput hsize hkept _

/-- What `createClusters` makes of the entries of `zc`: `zc'` and the temporary file. -/
structure BlobsKept (build : Build) (getData : Bytes → Blob) (zc zc' : ZimCreator)
    (tmpfile : Bytes) : Prop where
  /-- Nothing changes in an entry but the numbers of an article. -/
  entries : List.Forall₂ Renumbered zc.dirents zc'.dirents
  /-- The data of an article is in its cluster, under its number, and in an uncompressed cluster
  of its own if it is not to be compressed. -/
  blob : ∀ d ∈ articles zc'.dirents, ∃ off c,
    zc'.clusterOffsets[d.clusterNumber.toNat]? = some off ∧
    ClusterImpl.get build ⟨tmpfile.drop off.toNat, false⟩ = .ok (c, false) ∧
    c.getBlob d.blobNumber = some (getData d.aid).val ∧
    (d.compress = false → c.compression = .zimcompNone ∧ c.getCount = 1)
  distinct : (articles zc'.dirents).Pairwise fun d e =>
    (d.clusterNumber, d.blobNumber) ≠ (e.clusterNumber, e.blobNumber)
  alone : (articles zc'.dirents).Pairwise fun d e =>
    d.compress = false ∨ e.compress = false → d.clusterNumber ≠ e.clusterNumber
  /-- The serialized clusters follow each other in the order of their offsets. -/
  tiled : ∃ chunks : List Bytes, tmpfile = chunks.flatten ∧
    zc'.clusterOffsets.map UInt64.toNat = Chunks.starts chunks ∧
    ∀ bs ∈ chunks, ∃ c, ClusterImpl.put build c = .ok bs

theorem Packed.blobsKept (h : Packed build getData zc zc' tmpfile groups chunks)
    (hsmall : Small getData groups)
    (hkept : ∀ group ∈ groups, (groupCluster getData zc.compression group).KeptBy build)
    (hcount : groups.length ≤ 2 ^ 32) :
    BlobsKept build getData zc zc' tmpfile where
  entries := h.entries
  blob := by
    intro d hd
    rw [h.places] at hd
    obtain ⟨k, group, b, e, hk, hb, rfl⟩ := mem_placed.mp hd
    have hsize := hsmall group (List.mem_of_getElem? hk)
    obtain ⟨off, hoff, -, hget⟩ :=
      h.get_cluster hk hsize (hkept group (List.mem_of_getElem? hk))
    have hget := hget []
    rw [List.append_nil] at hget
    obtain ⟨hlt, -⟩ := List.getElem?_eq_some_iff.mp hk
    have hk' : (UInt32.ofNat k).toNat = k :=
      UInt32.toNat_ofNat_of_lt' (by simp only [UInt32.size]; omega)
    refine ⟨off, _, by rwa [place_clusterNumber, hk'], hget, ?_, fun hc => ?_⟩
    · have hblob : (blobs getData group)[b]? = some (getData e.aid) := by simp [blobs, hb]
      exact ClusterImpl.getBlob_ofBlobs _ _ hsize hblob
    · obtain ⟨-, hall | ⟨e', rfl, he'⟩⟩ := h.kinds group (List.mem_of_getElem? hk)
      · rw [place_compress, hall e (List.mem_of_getElem? hb)] at hc
        cases hc
      · simp [groupCluster, he', blobs, ClusterImpl.ofBlobs_getCount]
  distinct := by
    rw [h.places]
    apply placed_pairwise
    · intro k group b b' e e' hk hb hb' hlt heq
      have hsize := groupSize_length (hsmall group (List.mem_of_getElem? hk))
      obtain ⟨hb, -⟩ := List.getElem?_eq_some_iff.mp hb
      obtain ⟨hb', -⟩ := List.getElem?_eq_some_iff.mp hb'
      have hnum := (Prod.mk.inj heq).2
      simp only [place_blobNumber] at hnum
      rw [ofNat_inj (by omega) (by omega)] at hnum
      omega
    · intro k k' group group' b b' e e' hk hk' hb hb' hlt heq
      obtain ⟨hk, -⟩ := List.getElem?_eq_some_iff.mp hk
      obtain ⟨hk', -⟩ := List.getElem?_eq_some_iff.mp hk'
      have hnum := (Prod.mk.inj heq).1
      simp only [place_clusterNumber] at hnum
      rw [ofNat_inj (by omega) (by omega)] at hnum
      omega
  alone := by
    rw [h.places]
    apply placed_pairwise
    · intro k group b b' e e' hk hb hb' hlt hor
      -- two articles share a cluster only if both are to be compressed
      obtain ⟨-, hall | ⟨d, rfl, -⟩⟩ := h.kinds group (List.mem_of_getElem? hk)
      · have he := hall e (List.mem_of_getElem? hb)
        have he' := hall e' (List.mem_of_getElem? hb')
        simp [he, he'] at hor
      · obtain ⟨hb, -⟩ := List.getElem?_eq_some_iff.mp hb
        obtain ⟨hb', -⟩ := List.getElem?_eq_some_iff.mp hb'
        simp only [List.length_singleton] at hb hb'
        omega
    · intro k k' group group' b b' e e' hk hk' hb hb' hlt _ hnum
      obtain ⟨hk, -⟩ := List.getElem?_eq_some_iff.mp hk
      obtain ⟨hk', -⟩ := List.getElem?_eq_some_iff.mp hk'
      simp only [place_clusterNumber] at hnum
      rw [ofNat_inj (by omega) (by omega)] at hnum
      omega
  tiled := by
    refine ⟨chunks, h.content, ?_, ?_⟩
    · have hmax : chunks.flatten.length ≤ maxOffset := h.content ▸ h.size
      rw [h.offsets, List.map_map]
      refine (List.map_congr_left fun off hoff => ?_).trans (List.map_id _)
      obtain ⟨k, -, rfl⟩ := List.mem_map.mp hoff
      have hstart := Chunks.start_le chunks k
      exact UInt64.toNat_ofNat_of_lt' (by simp only [UInt64.size, maxOffset] at *; omega)
    · intro bs hbs
      obtain ⟨k, hk, rfl⟩ := List.getElem_of_mem hbs
      have hk' : k < groups.length := h.serialized.length_eq ▸ hk
      exact ⟨_, List.Forall₂.get h.serialized hk' hk⟩

section Many

def noData : Bytes → Blob := fun _ => ⟨[], by decide⟩

/-- A creator with `n` equal articles without data, none of which is to be compressed. -/
def manyEntries (n : ℕ) : ZimCreator :=
  { new 1 .zimcompNone with dirents := List.replicate n (.new []) }

theorem grouping_replicate (t n : ℕ) :
    grouping noData t [] (List.replicate n (.new [])) = List.replicate n [.new []] := by
  induction n with
  | zero => rfl
  | succ n ih =>
    rw [List.replicate_succ, grouping, if_neg (by decide), if_neg (by decide), ih]
    rfl

theorem addDirent_noData {s : Clusters} (hcount : s.cluster.count = 0)
    (hgood : s.out.fail = false) (hroom : s.out.bytes.length + 9 ≤ maxOffset) :
    addDirent Build.noCodecs noData zc s (.new []) = .ok
      { s with
        dirents := s.dirents ++
          [(Dirent.new []).setCluster (UInt32.ofNat s.clusterOffsets.length) 0]
        clusterOffsets := s.clusterOffsets ++ [s.out.tellp]
        out := ⟨s.out.bytes ++ [1, 8, 0, 0, 0, 8, 0, 0, 0], false⟩ } := by
  have hput : ((Cluster.new.addBlob (noData [])).setCompression .zimcompNone).getImpl.put
      Build.noCodecs = .ok [1, 8, 0, 0, 0, 8, 0, 0, 0] := by decide
  have hwrite : s.out.write [1, 8, 0, 0, 0, 8, 0, 0, 0] =
      ⟨s.out.bytes ++ [1, 8, 0, 0, 0, 8, 0, 0, 0], false⟩ := by
    rw [OStream.write, if_neg (by simp [hgood]), if_pos (by simpa using hroom)]
  have hclose : closeCluster Build.noCodecs zc s = .ok s := by
    rw [closeCluster, hcount, if_neg (by decide)]
  rw [addDirent, if_neg (by decide), if_neg (by decide), if_neg (by decide)]
  refine Fallible.bind_eq_ok.mpr ⟨s, hclose, ?_⟩
  simp only [hcount, writeCluster]
  refine Fallible.bind_eq_ok.mpr ⟨_, hput, ?_⟩
  simp [hwrite, hcount]

theorem addDirents_replicate {s : Clusters} {n : ℕ} (hcount : s.cluster.count = 0)
    (hgood : s.out.fail = false) (hroom : s.out.bytes.length + 9 * n ≤ maxOffset) :
    ∃ s', addDirents Build.noCodecs noData zc s (List.replicate n (.new [])) = .ok s' ∧
      s'.cluster.count = 0 ∧ s'.out.fail = false := by
  induction n generalizing s with
  | zero => exact ⟨s, rfl, hcount, hgood⟩
  | succ n ih =>
    have hstep := @addDirent_noData zc s hcount hgood (by omega)
    have hroom' : (s.out.bytes ++ [1, 8, 0, 0, 0, 8, 0, 0, 0]).length + 9 * n ≤ maxOffset := by
      simp only [List.length_append, List.length_cons, List.length_nil]
      omega
    obtain ⟨s', hok, hcount', hgood'⟩ := @ih
      ⟨_, s.clusterOffsets ++ [s.out.tellp], s.isEmpty, s.cluster, ⟨_, false⟩⟩ hcount rfl hroom'
    refine ⟨s', ?_, hcount', hgood'⟩
    rw [List.replicate_succ, addDirents, if_neg (by simp [hgood])]
    exact Fallible.bind_eq_ok.mpr ⟨_, hstep, hok⟩

theorem placed_replicate (n : ℕ) (d : Dirent) :
    placed (List.replicate n [d]) = (List.range n).map fun k => place k 0 d := by
  induction n with
  | zero => rfl
  | succ n ih =>
    rw [List.replicate_succ', placed_concat, ih, List.range_succ, List.map_append]
    simp

end Many

end ZimCreator
end Zim.Writer
