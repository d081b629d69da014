import Zim.Lib.Fallible
import Zim.Format.ClusterBlobs
import Zim.Writer.ZimCreator

/-! The clusters of an archive: groups of consecutive articles, written one after the other. -/
namespace Zim.Writer
open Cxx
namespace ZimCreator
variable {build : Build} {getData : Bytes → Blob} {zc : ZimCreator}

/-- The blobs of a group of entries. -/
def blobs (getData : Bytes → Blob) (group : List Dirent) : List Blob :=
  group.map fun d => getData d.aid

/-- The cluster of a group: articles that are not to be compressed are alone in theirs. -/
def groupCluster (getData : Bytes → Blob) (compression : CompressionType) (group : List Dirent) :
    ClusterImpl :=
  .ofBlobs (if group.all fun d => d.compress then compression else .zimcompNone)
    (blobs getData group)

/-- The entry of blob `b` in cluster `k`. -/
def place (k b : ℕ) (d : Dirent) : Dirent := d.setCluster (UInt32.ofNat k) (UInt32.ofNat b)

@[simp] theorem place_clusterNumber (k b : ℕ) (d : Dirent) :
    (place k b d).clusterNumber = UInt32.ofNat k := rfl
@[simp] theorem place_blobNumber (k b : ℕ) (d : Dirent) :
    (place k b d).blobNumber = UInt32.ofNat b := rfl
@[simp] theorem place_aid (k b : ℕ) (d : Dirent) : (place k b d).aid = d.aid := rfl
@[simp] theorem place_compress (k b : ℕ) (d : Dirent) : (place k b d).compress = d.compress := rfl

/-- The entries with the numbers of their places in the given groups. -/
def placed (groups : List (List Dirent)) : List Dirent :=
  (groups.mapIdx fun k group => group.mapIdx (place k)).flatten

theorem placed_concat (groups : List (List Dirent)) (group : List Dirent) :
    placed (groups ++ [group]) = placed groups ++ group.mapIdx (place groups.length) := by
  simp [placed, List.mapIdx_append]

theorem placed_concat_nil (groups : List (List Dirent)) :
    placed (groups ++ [[]]) = placed groups := by
  simp [placed_concat]

theorem placed_concat_concat (groups : List (List Dirent)) (group : List Dirent) (d : Dirent) :
    placed (groups ++ [group ++ [d]]) = placed (groups ++ [group]) ++
      [place groups.length group.length d] := by
  simp [placed_concat, List.mapIdx_append]

/-- An entry behind `createClusters`: an article has got the numbers of its place. -/
def Renumbered (d d' : Dirent) : Prop :=
  d' = d ∨ d.isRedirect = false ∧ ∃ k b, d' = d.setCluster k b

/-- The articles among the entries. -/
def articles (dirents : List Dirent) : List Dirent := dirents.filter fun d => !d.isRedirect

/-- The clusters written so far follow each other in the temporary file. -/
structure Tiled (s : Clusters) (chunks : List Bytes) : Prop where
  out : s.out = ⟨chunks.flatten, false⟩
  offsets : s.clusterOffsets = (Chunks.starts chunks).map UInt64.ofNat
  size : chunks.flatten.length ≤ maxOffset

/-- What the loop keeps: the clusters of `groups` are written, the one of `pending` is open, and
every article has the numbers of its place in `groups ++ [pending]`. -/
structure Packing (build : Build) (getData : Bytes → Blob) (zc : ZimCreator) (s : Clusters)
    (done : List Dirent) (groups : List (List Dirent)) (pending : List Dirent)
    (chunks : List Bytes) : Prop extends Tiled s chunks where
  entries : List.Forall₂ Renumbered done s.dirents
  places : articles s.dirents = placed (groups ++ [pending])
  cluster : s.cluster = ⟨some (.ofBlobs zc.compression (blobs getData pending))⟩
  serialized : List.Forall₂
    (fun group bs => (groupCluster getData zc.compression group).put build = .ok bs) groups chunks
  kinds : ∀ group ∈ groups, group ≠ [] ∧
    ((∀ d ∈ group, d.compress = true) ∨ ∃ d, group = [d] ∧ d.compress = false)
  pendingKind : ∀ d ∈ pending, d.compress = true

theorem writeCluster_ok {s s' : Clusters} {c : Cluster} (h : writeCluster build s c = .ok s')
    (hfail : s'.out.fail = false) :
    ∃ bs, c.getImpl.put build = .ok bs ∧ s.out.fail = false ∧
      s.out.bytes.length + bs.length ≤ maxOffset ∧
      s' = { s with
        clusterOffsets := s.clusterOffsets ++ [UInt64.ofNat s.out.bytes.length]
        out := ⟨s.out.bytes ++ bs, false⟩ } := by
  unfold writeCluster at h
  obtain ⟨bs, hput, h⟩ := Fallible.bind_eq_ok.mp h
  simp only at h
  split at h
  · cases h
  cases h
  obtain ⟨hgood, hbytes, hsize⟩ := OStream.write_ok hfail
  have hout : s.out.write bs = ⟨s.out.bytes ++ bs, false⟩ := by
    rw [← hbytes, ← hfail]
  exact ⟨bs, hput, hgood, hsize, by simp [hout, OStream.tellp, hgood]⟩

theorem Tiled.write {s s' : Clusters} {chunks : List Bytes} (ht : Tiled s chunks) {c : Cluster}
    (h : writeCluster build s c = .ok s') (hfail : s'.out.fail = false) :
    ∃ bs, c.getImpl.put build = .ok bs ∧ Tiled s' (chunks ++ [bs]) := by
  obtain ⟨bs, hput, -, hsize, rfl⟩ := writeCluster_ok h hfail
  refine ⟨bs, hput, ?_, ?_, ?_⟩
  · simp [ht.out]
  · simp [ht.out, ht.offsets, Chunks.starts_concat]
  · simpa [ht.out] using hsize

theorem articles_concat (dirents : List Dirent) (d : Dirent) :
    articles (dirents ++ [d]) = articles dirents ++ if d.isRedirect then [] else [d] := by
  by_cases h : d.isRedirect = true <;> simp [articles, h]

section Step
variable {s s' : Clusters} {done : List Dirent} {groups : List (List Dirent)}
    {pending : List Dirent} {chunks : List Bytes} {d : Dirent}

/-- A redirect is passed over. -/
theorem Packing.redirect (h : Packing build getData zc s done groups pending chunks)
    (hd : d.isRedirect = true) :
    Packing build getData zc { s with dirents := s.dirents ++ [d] } (done ++ [d]) groups pending
      chunks where
  toTiled := ⟨h.out, h.offsets, h.size⟩
  entries := List.rel_append h.entries (.cons (.inl rfl) .nil)
  places := by rw [articles_concat, if_pos hd, List.append_nil, h.places]
  cluster := h.cluster
  serialized := h.serialized
  kinds := h.kinds
  pendingKind := h.pendingKind

/-- The number of the open cluster, and the one of a blob added to it. -/
theorem Packing.numbers (h : Packing build getData zc s done groups pending chunks) :
    s.clusterOffsets.length = groups.length ∧ s.cluster.count = UInt32.ofNat pending.length := by
  constructor
  · rw [h.offsets, List.length_map, Chunks.starts_length, h.serialized.length_eq]
  · rw [h.cluster]
    simp [Cluster.count, ClusterImpl.ofBlobs_getCount, blobs]

/-- An article is added to the open cluster. -/
theorem Packing.add (h : Packing build getData zc s done groups pending chunks)
    (hd : d.isRedirect = false) (hc : d.compress = true) :
    Packing build getData zc
      { s with
        dirents := s.dirents ++
          [d.setCluster (UInt32.ofNat s.clusterOffsets.length) s.cluster.count]
        cluster := s.cluster.addBlob (getData d.aid) }
      (done ++ [d]) groups (pending ++ [d]) chunks where
  toTiled := ⟨h.out, h.offsets, h.size⟩
  entries := List.rel_append h.entries (.cons (.inr ⟨hd, _, _, rfl⟩) .nil)
  places := by
    obtain ⟨hnum, hcount⟩ := h.numbers
    have hd' : (d.setCluster (UInt32.ofNat s.clusterOffsets.length)
      s.cluster.count).isRedirect = false := hd
    rw [articles_concat, if_neg (by simp [hd']), h.places, placed_concat_concat, hnum, hcount,
      place]
  cluster := by
    rw [h.cluster]
    simp [Cluster.addBlob, Cluster.getImpl, blobs, ClusterImpl.ofBlobs_concat]
  serialized := h.serialized
  kinds := h.kinds
  pendingKind := fun e he => by
    rcases List.mem_append.mp he with he | he
    · exact h.pendingKind e he
    · rw [List.mem_singleton.mp he]
      exact hc

/-- The open cluster is written. -/
theorem Packing.flush (h : Packing build getData zc s done groups pending chunks)
    (hne : pending ≠ []) {c : Cluster} (hc : c.getImpl = s.cluster.getImpl)
    (hw : writeCluster build s c = .ok s') (hfail : s'.out.fail = false) :
    ∃ bs, Packing build getData zc
      { s' with cluster := s'.cluster.clear.setCompression zc.compression } done
      (groups ++ [pending]) [] (chunks ++ [bs]) := by
  obtain ⟨bs, hput, htiled⟩ := h.toTiled.write hw hfail
  obtain ⟨_, -, -, -, rfl⟩ := writeCluster_ok hw hfail
  have hall : pending.all (fun d => d.compress) = true := List.all_eq_true.mpr h.pendingKind
  have hcluster : c.getImpl = groupCluster getData zc.compression pending := by
    rw [hc, h.cluster, groupCluster, if_pos hall]
    rfl
  rw [hcluster] at hput
  refine ⟨bs, ⟨htiled.out, htiled.offsets, htiled.size⟩, h.entries, ?_, rfl,
    List.rel_append h.serialized (.cons hput .nil), ?_,
    fun _ he => absurd he List.not_mem_nil⟩
  · rw [placed_concat_nil]
    exact h.places
  · intro group hgroup
    rcases List.mem_append.mp hgroup with hgroup | hgroup
    · exact h.kinds group hgroup
    · rw [List.mem_singleton.mp hgroup]
      exact ⟨hne, .inl h.pendingKind⟩

/-- An article that is not to be compressed is written behind a closed cluster. -/
theorem Packing.alone (h : Packing build getData zc s done groups [] chunks)
    (hd : d.isRedirect = false) (hc : d.compress = false)
    (hw : writeCluster build
      { s with dirents := s.dirents ++
          [d.setCluster (UInt32.ofNat s.clusterOffsets.length) s.cluster.count] }
      ((Cluster.new.addBlob (getData d.aid)).setCompression .zimcompNone) = .ok s')
    (hfail : s'.out.fail = false) :
    ∃ bs, Packing build getData zc s' (done ++ [d]) (groups ++ [[d]]) [] (chunks ++ [bs]) := by
  have htiled : Tiled { s with dirents := s.dirents ++
      [d.setCluster (UInt32.ofNat s.clusterOffsets.length) s.cluster.count] } chunks :=
    ⟨h.out, h.offsets, h.size⟩
  obtain ⟨bs, hput, htiled'⟩ := htiled.write hw hfail
  obtain ⟨_, -, -, -, rfl⟩ := writeCluster_ok hw hfail
  obtain ⟨hnum, hcount⟩ := h.numbers
  have hcluster : ((Cluster.new.addBlob (getData d.aid)).setCompression .zimcompNone).getImpl =
      groupCluster getData zc.compression [d] := by
    simp [groupCluster, hc, blobs, ClusterImpl.ofBlobs, Cluster.setCompression, Cluster.addBlob,
      Cluster.getImpl, Cluster.new, ClusterImpl.setCompression, ClusterImpl.addBlob]
  rw [hcluster] at hput
  refine ⟨bs, ⟨htiled'.out, htiled'.offsets, htiled'.size⟩,
    List.rel_append h.entries (.cons (.inr ⟨hd, _, _, rfl⟩) .nil), ?_, h.cluster,
    List.rel_append h.serialized (.cons hput .nil), ?_,
    fun _ he => absurd he List.not_mem_nil⟩
  · have hd' : (d.setCluster (UInt32.ofNat s.clusterOffsets.length)
      s.cluster.count).isRedirect = false := hd
    have hplace := placed_concat_concat groups [] d
    rw [List.nil_append] at hplace
    rw [placed_concat_nil, articles_concat, if_neg (by simp [hd']), h.places, hplace, hnum, hcount,
      place]
  · intro group hgroup
    rcases List.mem_append.mp hgroup with hgroup | hgroup
    · exact h.kinds group hgroup
    · rw [List.mem_singleton.mp hgroup]
      exact ⟨by simp, .inr ⟨d, rfl, hc⟩⟩

theorem Packing.setIsEmpty (h : Packing build getData zc s done groups pending chunks)
    (b : Bool) : Packing build getData zc { s with isEmpty := b } done groups pending chunks where
  toTiled := ⟨h.out, h.offsets, h.size⟩
  entries := h.entries
  places := h.places
  cluster := h.cluster
  serialized := h.serialized
  kinds := h.kinds
  pendingKind := h.pendingKind

theorem Packing.setCompression (h : Packing build getData zc s done groups pending chunks) :
    (s.cluster.setCompression zc.compression).getImpl = s.cluster.getImpl := by
  rw [h.cluster]
  exact ClusterImpl.setCompression_ofBlobs _ _

theorem Packing.count_pos (h : Packing build getData zc s done groups pending chunks)
    (hp : pending.length < 2 ^ 32) : 0 < s.cluster.count ↔ pending ≠ [] := by
  rw [h.numbers.2, UInt32.lt_iff_toNat_lt, UInt32.toNat_ofNat_of_lt' hp]
  exact List.length_pos_iff

end Step

/-- The groups of the articles in a list of entries, `pending` being the ones of the open
cluster: a group is closed when its cluster has reached the threshold, before an article that is
not to be compressed, and at the end. -/
def grouping (getData : Bytes → Blob) (threshold : ℕ) (pending : List Dirent) :
    List Dirent → List (List Dirent)
  | [] => if pending = [] then [] else [pending]
  | d :: ds =>
    if d.isRedirect then grouping getData threshold pending ds
    else if d.compress then
      if threshold ≤ ClusterImpl.blobsSize (blobs getData (pending ++ [d])) then
        (pending ++ [d]) :: grouping getData threshold [] ds
      else grouping getData threshold (pending ++ [d]) ds
    else (if pending = [] then [] else [pending]) ++ [d] :: grouping getData threshold [] ds

/-- The size at which a cluster is closed. -/
def threshold (zc : ZimCreator) : ℕ := (zc.minChunkSize * 1024).toNat

section Loop
variable {s s' : Clusters} {done : List Dirent} {groups : List (List Dirent)}
    {pending : List Dirent} {chunks : List Bytes} {d : Dirent}

theorem addCompressed_packing (h : Packing build getData zc s done groups pending chunks)
    (hd : d.isRedirect = false) (hc : d.compress = true)
    (hok : addCompressed build zc s d (getData d.aid) = .ok s') (hfail : s'.out.fail = false) :
    ∃ groups' pending' chunks', Packing build getData zc s' (done ++ [d]) groups' pending' chunks' ∧
      (ClusterImpl.blobsSize (blobs getData (pending ++ [d])) < 2 ^ 32 → ∀ ds,
        groups ++ grouping getData zc.threshold pending (d :: ds) =
          groups' ++ grouping getData zc.threshold pending' ds) := by
  have hadd := h.add hd hc
  have hsize : (s.cluster.addBlob (getData d.aid)).size =
      UInt32.ofNat (ClusterImpl.blobsSize (blobs getData (pending ++ [d]))) := by
    rw [show s.cluster.addBlob (getData d.aid) = _ from hadd.cluster]
    simp [Cluster.size, ClusterImpl.ofBlobs_getSize]
  have hreach (hlt : ClusterImpl.blobsSize (blobs getData (pending ++ [d])) < 2 ^ 32) :
      zc.minChunkSize * 1024 ≤ UInt32.ofNat (ClusterImpl.blobsSize (blobs getData (pending ++ [d])))
        ↔ zc.threshold ≤ ClusterImpl.blobsSize (blobs getData (pending ++ [d])) := by
    rw [UInt32.le_iff_toNat_le, UInt32.toNat_ofNat_of_lt' hlt, threshold]
  simp only [addCompressed, hsize] at hok
  split at hok
  next hfull =>
    obtain ⟨s₁, hw, hok⟩ := Fallible.bind_eq_ok.mp hok
    cases hok
    obtain ⟨bs, hflush⟩ := hadd.flush (by simp) rfl hw hfail
    refine ⟨_, _, _, hflush, fun hlt ds => ?_⟩
    have hle := (hreach hlt).mp hfull
    simp [grouping, hd, hc, hle]
  next hfull =>
    cases hok
    refine ⟨_, _, _, hadd, fun hlt ds => ?_⟩
    have hle := mt (hreach hlt).mpr hfull
    simp [grouping, hd, hc, hle]

theorem addUncompressed_packing (h : Packing build getData zc s done groups pending chunks)
    (hp : pending.length < 2 ^ 32) (hd : d.isRedirect = false) (hc : d.compress = false)
    (hok : addUncompressed build zc s d (getData d.aid) = .ok s') (hfail : s'.out.fail = false) :
    ∃ groups' pending' chunks', Packing build getData zc s' (done ++ [d]) groups' pending' chunks' ∧
      ∀ ds, groups ++ grouping getData zc.threshold pending (d :: ds) =
        groups' ++ grouping getData zc.threshold pending' ds := by
  unfold addUncompressed at hok
  obtain ⟨s₁, hclose, hw⟩ := Fallible.bind_eq_ok.mp hok
  obtain ⟨_, -, hgood, -, -⟩ := writeCluster_ok hw hfail
  rw [closeCluster] at hclose
  by_cases hpos : 0 < s.cluster.count
  · simp only [if_pos hpos] at hclose hw hgood
    have hne := (h.count_pos hp).mp hpos
    obtain ⟨bs, hflush⟩ := h.flush hne h.setCompression hclose hgood
    obtain ⟨bs', halone⟩ := hflush.alone hd hc hw hfail
    exact ⟨_, _, _, halone, fun ds => by simp [grouping, hd, hc, hne]⟩
  · simp only [if_neg hpos, Except.ok.injEq] at hclose hw hgood
    subst hclose
    have hnil : pending = [] := not_not.mp (mt (h.count_pos hp).mpr hpos)
    subst hnil
    obtain ⟨bs, halone⟩ := h.alone hd hc hw hfail
    exact ⟨_, _, _, halone, fun ds => by simp [grouping, hd, hc]⟩

theorem exists_group (getData : Bytes → Blob) {pending : List Dirent} (hne : pending ≠ []) (t : ℕ)
    (ds : List Dirent) :
    ∃ group ∈ grouping getData t pending ds, pending <+: group := by
  induction ds generalizing pending with
  | nil => exact ⟨pending, by simp [grouping, hne], List.prefix_rfl⟩
  | cons d ds ih =>
    unfold grouping
    split_ifs
    · exact ih hne
    · exact ⟨_, List.mem_cons_self, List.prefix_append _ _⟩
    · obtain ⟨group, hgroup, hprefix⟩ := @ih (pending ++ [d]) (by simp)
      exact ⟨group, hgroup, (List.prefix_append _ _).trans hprefix⟩
    · exact ⟨pending, by simp, List.prefix_rfl⟩

/-- The size of a group, in bytes of its cluster. -/
def groupSize (getData : Bytes → Blob) (group : List Dirent) : ℕ :=
  ClusterImpl.blobsSize (blobs getData group)

theorem groupSize_mono {group more : List Dirent} (h : group <+: more) :
    groupSize getData group ≤ groupSize getData more :=
  ClusterImpl.blobsSize_mono (h.map _)

/-- No group takes 2^32 bytes or more. -/
def Small (getData : Bytes → Blob) (groups : List (List Dirent)) : Prop :=
  ∀ group ∈ groups, groupSize getData group < 2 ^ 32

theorem Small.openSize {groups : List (List Dirent)} {pending ds : List Dirent} {t : ℕ}
    (h : Small getData (groups ++ grouping getData t pending ds)) (hne : pending ≠ []) :
    groupSize getData pending < 2 ^ 32 := by
  obtain ⟨group, hgroup, hprefix⟩ := exists_group getData hne t ds
  exact (groupSize_mono hprefix).trans_lt (h group (List.mem_append_right _ hgroup))

theorem Small.pending_length {groups : List (List Dirent)} {pending ds : List Dirent} {t : ℕ}
    (h : Small getData (groups ++ grouping getData t pending ds)) : pending.length < 2 ^ 32 := by
  by_cases hne : pending = []
  · simp [hne]
  · have hsize := h.openSize hne
    simp only [groupSize, ClusterImpl.blobsSize, blobs, List.length_map] at hsize
    omega

theorem Small.add {groups : List (List Dirent)} {pending ds : List Dirent} {d : Dirent} {t : ℕ}
    (h : Small getData (groups ++ grouping getData t pending (d :: ds)))
    (hd : d.isRedirect = false) (hc : d.compress = true) :
    groupSize getData (pending ++ [d]) < 2 ^ 32 := by
  rw [grouping, if_neg (by simp [hd]), if_pos hc] at h
  split_ifs at h
  · exact h _ (by simp)
  · exact h.openSize (by simp)

/-- What a turn of the loop does to the groups. -/
theorem addDirent_packing (h : Packing build getData zc s done groups pending chunks)
    (hp : pending.length < 2 ^ 32) (hok : addDirent build getData zc s d = .ok s')
    (hfail : s'.out.fail = false) :
    ∃ groups' pending' chunks', Packing build getData zc s' (done ++ [d]) groups' pending' chunks' ∧
      ∀ ds, Small getData (groups ++ grouping getData zc.threshold pending (d :: ds)) →
        groups ++ grouping getData zc.threshold pending (d :: ds) =
          groups' ++ grouping getData zc.threshold pending' ds := by
  unfold addDirent at hok
  by_cases hd : d.isRedirect = true
  · rw [if_pos hd] at hok
    cases hok
    exact ⟨_, _, _, h.redirect hd, fun ds _ => by rw [grouping, if_pos hd]⟩
  rw [if_neg hd] at hok
  have hd' : d.isRedirect = false := by simpa using hd
  have h' : Packing build getData zc
      (if 0 < (getData d.aid).val.length then { s with isEmpty := false } else s)
      done groups pending chunks := by
    split_ifs
    · exact h.setIsEmpty false
    · exact h
  by_cases hc : d.compress = true
  · simp only [hc, if_true] at hok
    obtain ⟨groups', pending', chunks', hpack, hgroups⟩ :=
      addCompressed_packing h' hd' hc hok hfail
    exact ⟨groups', pending', chunks', hpack, fun ds hsmall => hgroups (hsmall.add hd' hc) ds⟩
  · simp only [hc, if_false, Bool.false_eq_true] at hok
    obtain ⟨groups', pending', chunks', hpack, hgroups⟩ :=
      addUncompressed_packing h' hp hd' (by simpa using hc) hok hfail
    exact ⟨groups', pending', chunks', hpack, fun ds _ => hgroups ds⟩

theorem Packing.pending_length_le (h : Packing build getData zc s done groups pending chunks) :
    pending.length ≤ done.length := by
  have hplaces := congrArg List.length h.places
  rw [placed_concat, List.length_append, List.length_mapIdx] at hplaces
  have hle : (articles s.dirents).length ≤ s.dirents.length := List.length_filter_le _ _
  have hlen := h.entries.length_eq
  omega

theorem addDirents_fail {ds : List Dirent} (hfail : s.out.fail = true)
    (hok : addDirents build getData zc s ds = .ok s') : s'.out.fail = true := by
  cases ds with
  | nil =>
    cases hok
    exact hfail
  | cons d ds =>
    rw [addDirents, if_pos hfail] at hok
    cases hok
    exact hfail

/-- What the loop does, where the number of entries or the size of the groups keeps the count of
blobs in 32 bits. -/
theorem addDirents_packing {ds : List Dirent}
    (h : Packing build getData zc s done groups pending chunks)
    (hbound : (done ++ ds).length < 2 ^ 32 ∨
      Small getData (groups ++ grouping getData zc.threshold pending ds))
    (hok : addDirents build getData zc s ds = .ok s') (hfail : s'.out.fail = false) :
    ∃ groups' pending' chunks',
      Packing build getData zc s' (done ++ ds) groups' pending' chunks' ∧
      (Small getData (groups ++ grouping getData zc.threshold pending ds) →
        groups ++ grouping getData zc.threshold pending ds =
          groups' ++ grouping getData zc.threshold pending' []) := by
  induction ds generalizing s done groups pending chunks with
  | nil =>
    cases hok
    exact ⟨groups, pending, chunks, by simpa using h, fun _ => rfl⟩
  | cons d ds ih =>
    rw [addDirents, if_neg (by simp [h.out])] at hok
    obtain ⟨s₁, hstep, hok⟩ := Fallible.bind_eq_ok.mp hok
    have hfail₁ : s₁.out.fail = false := by
      by_contra hbad
      exact absurd (addDirents_fail (by simpa using hbad) hok) (by simp [hfail])
    have hp : pending.length < 2 ^ 32 := by
      rcases hbound with hlen | hsmall
      · have hle := h.pending_length_le
        simp only [List.length_append, List.length_cons] at hlen
        omega
      · exact hsmall.pending_length
    obtain ⟨groups₁, pending₁, chunks₁, h₁, hgroups⟩ := addDirent_packing h hp hstep hfail₁
    have hbound₁ : (done ++ [d] ++ ds).length < 2 ^ 32 ∨
        Small getData (groups₁ ++ grouping getData zc.threshold pending₁ ds) := by
      rcases hbound with hlen | hsmall
      · exact .inl (by simpa using hlen)
      · exact .inr (hgroups ds hsmall ▸ hsmall)
    obtain ⟨groups', pending', chunks', h', hgroups'⟩ := ih h₁ hbound₁ hok
    refine ⟨groups', pending', chunks', by simpa using h', fun hsmall => ?_⟩
    have heq := hgroups ds hsmall
    rw [heq] at hsmall
    exact heq.trans (hgroups' hsmall)

end Loop

/-- What `createClusters` leaves behind: the clusters of `groups` make up the temporary file, and
every article has the numbers of its place in them. -/
structure Packed (build : Build) (getData : Bytes → Blob) (zc zc' : ZimCreator) (tmpfile : Bytes)
    (groups : List (List Dirent)) (chunks : List Bytes) : Prop where
  content : tmpfile = chunks.flatten
  offsets : zc'.clusterOffsets = (Chunks.starts chunks).map UInt64.ofNat
  entries : List.Forall₂ Renumbered zc.dirents zc'.dirents
  places : articles zc'.dirents = placed groups
  serialized : List.Forall₂
    (fun group bs => (groupCluster getData zc.compression group).put build = .ok bs) groups chunks
  kinds : ∀ group ∈ groups, group ≠ [] ∧
    ((∀ d ∈ group, d.compress = true) ∨ ∃ d, group = [d] ∧ d.compress = false)
  size : tmpfile.length ≤ maxOffset
  clustersSize : zc'.clustersSize = UInt64.ofNat tmpfile.length

/-- The groups that `createClusters` forms. -/
def groupsOf (getData : Bytes → Blob) (zc : ZimCreator) : List (List Dirent) :=
  grouping getData zc.threshold [] zc.dirents

theorem createClusters_packed {zc' : ZimCreator} {tmpfile : Bytes} (hempty : zc.clusterOffsets = [])
    (hbound : zc.dirents.length < 2 ^ 32 ∨ Small getData (groupsOf getData zc))
    (hok : zc.createClusters build getData = .ok (zc', tmpfile)) :
    ∃ groups chunks, Packed build getData zc zc' tmpfile groups chunks ∧
      (Small getData (groupsOf getData zc) → groups = groupsOf getData zc) := by
  unfold groupsOf at hbound ⊢
  unfold createClusters at hok
  obtain ⟨s, hloop, hok⟩ := Fallible.bind_eq_ok.mp hok
  obtain ⟨s', hclose, hok⟩ := Fallible.bind_eq_ok.mp hok
  split at hok
  next => cases hok
  next hfail' =>
  have hfail' : s'.out.fail = false := by simpa using hfail'
  cases hok
  rw [closeCluster] at hclose
  have hfail : s.out.fail = false := by
    split at hclose
    · obtain ⟨_, -, hgood, -, -⟩ := writeCluster_ok hclose hfail'
      exact hgood
    · cases hclose
      exact hfail'
  have hinit : Packing build getData zc ⟨[], zc.clusterOffsets, zc.isEmpty,
      Cluster.new.setCompression zc.compression, .empty⟩ [] [] [] [] :=
    ⟨⟨rfl, by simp [hempty], by simp⟩, .nil, rfl, rfl, .nil, nofun, nofun⟩
  obtain ⟨groups, pending, chunks, hpack, hgroups⟩ :=
    addDirents_packing hinit (by simpa using hbound) hloop hfail
  rw [List.nil_append] at hpack
  have hp : pending.length < 2 ^ 32 := by
    rcases hbound with hlen | hsmall
    · exact hpack.pending_length_le.trans_lt hlen
    · have heq := hgroups hsmall
      have hsmall' : Small getData (groups ++ grouping getData zc.threshold pending []) :=
        heq ▸ hsmall
      exact hsmall'.pending_length
  by_cases hpos : 0 < s.cluster.count
  · rw [if_pos hpos] at hclose
    have hne := (hpack.count_pos hp).mp hpos
    obtain ⟨bs, hflush⟩ := hpack.flush hne hpack.setCompression hclose hfail'
    refine ⟨groups ++ [pending], chunks ++ [bs], ⟨?_, hflush.offsets, hflush.entries, ?_,
      hflush.serialized, hflush.kinds, ?_, ?_⟩, fun hsmall => ?_⟩
    · exact congrArg OStream.bytes hflush.out
    · rw [← placed_concat_nil]
      exact hflush.places
    · rw [show s'.out.bytes = _ from congrArg OStream.bytes hflush.out]
      exact hflush.size
    · simp [OStream.tellp, hfail']
    · have heq := hgroups hsmall
      simpa [grouping, hne] using heq.symm
  · rw [if_neg hpos] at hclose
    cases hclose
    have hnil : pending = [] := not_not.mp (mt (hpack.count_pos hp).mpr hpos)
    subst hnil
    refine ⟨groups, chunks, ⟨?_, hpack.offsets, hpack.entries, ?_, hpack.serialized, hpack.kinds,
      ?_, ?_⟩, fun hsmall => ?_⟩
    · exact congrArg OStream.bytes hpack.out
    · rw [← placed_concat_nil]
      exact hpack.places
    · rw [hpack.out]
      exact hpack.size
    · simp [OStream.tellp, hfail']
    · have heq := hgroups hsmall
      simpa [grouping] using heq.symm

section Entries
variable {s s' : Clusters} {d : Dirent}

/-- Whether an entry brings no data. -/
def noBlob (getData : Bytes → Blob) (d : Dirent) : Bool :=
  d.isRedirect || (getData d.aid).val.length = 0

theorem writeCluster_keeps {c : Cluster} (h : writeCluster build s c = .ok s') :
    s'.dirents = s.dirents ∧ s'.isEmpty = s.isEmpty := by
  unfold writeCluster at h
  obtain ⟨bs, -, h⟩ := Fallible.bind_eq_ok.mp h
  simp only at h
  split at h
  · cases h
  · cases h
    exact ⟨rfl, rfl⟩

theorem closeCluster_keeps (h : closeCluster build zc s = .ok s') :
    s'.dirents = s.dirents ∧ s'.isEmpty = s.isEmpty := by
  unfold closeCluster at h
  split at h
  · exact writeCluster_keeps h
  · cases h
    exact ⟨rfl, rfl⟩

theorem addCompressed_entry {blob : Blob} (h : addCompressed build zc s d blob = .ok s') :
    (∃ k b, s'.dirents = s.dirents ++ [d.setCluster k b]) ∧ s'.isEmpty = s.isEmpty := by
  unfold addCompressed at h
  simp only at h
  split at h
  · obtain ⟨s₁, hw, h⟩ := Fallible.bind_eq_ok.mp h
    cases h
    obtain ⟨hdirents, hempty⟩ := writeCluster_keeps hw
    exact ⟨⟨_, _, hdirents⟩, hempty⟩
  · cases h
    exact ⟨⟨_, _, rfl⟩, rfl⟩

theorem addUncompressed_entry {blob : Blob} (h : addUncompressed build zc s d blob = .ok s') :
    (∃ k b, s'.dirents = s.dirents ++ [d.setCluster k b]) ∧ s'.isEmpty = s.isEmpty := by
  unfold addUncompressed at h
  obtain ⟨s₁, hclose, h⟩ := Fallible.bind_eq_ok.mp h
  obtain ⟨hdirents₁, hempty₁⟩ := closeCluster_keeps hclose
  obtain ⟨hdirents, hempty⟩ := writeCluster_keeps h
  rw [hdirents, hempty]
  split
  · exact ⟨⟨_, _, by simp only [hdirents₁]; rfl⟩, hempty₁⟩
  · exact ⟨⟨_, _, by simp only [hdirents₁]; rfl⟩, hempty₁⟩

/-- A turn of the loop adds the entry and notes whether it has brought data. -/
theorem addDirent_entry (h : addDirent build getData zc s d = .ok s') :
    (∃ d', Renumbered d d' ∧ s'.dirents = s.dirents ++ [d']) ∧
      s'.isEmpty = (s.isEmpty && noBlob getData d) := by
  unfold addDirent at h
  by_cases hd : d.isRedirect = true
  · rw [if_pos hd] at h
    cases h
    exact ⟨⟨d, .inl rfl, rfl⟩, by simp [noBlob, hd]⟩
  · rw [if_neg hd] at h
    have hd' := eq_false_of_ne_true hd
    simp only at h
    generalize hs : (if 0 < (getData d.aid).val.length then { s with isEmpty := false } else s) = s₁
      at h
    have hkeep : s₁.dirents = s.dirents ∧ s₁.isEmpty = (s.isEmpty && noBlob getData d) := by
      subst hs
      split_ifs with hpos
      · have hne := Nat.pos_iff_ne_zero.mp hpos
        exact ⟨rfl, by simp [noBlob, hd', List.length_pos_iff.mp hpos]⟩
      · have hzero : (getData d.aid).val = [] := by simpa using hpos
        exact ⟨rfl, by simp [noBlob, hd', hzero]⟩
    have hentry : (∃ k b, s'.dirents = s₁.dirents ++ [d.setCluster k b]) ∧
        s'.isEmpty = s₁.isEmpty := by
      split at h
      · exact addCompressed_entry h
      · exact addUncompressed_entry h
    obtain ⟨⟨k, b, hdirents⟩, hempty⟩ := hentry
    rw [hkeep.1] at hdirents
    exact ⟨⟨_, .inr ⟨hd', k, b, rfl⟩, hdirents⟩, hempty.trans hkeep.2⟩

theorem addDirents_entries {ds : List Dirent} (h : addDirents build getData zc s ds = .ok s')
    (hfail : s'.out.fail = false) :
    (∃ ds', List.Forall₂ Renumbered ds ds' ∧ s'.dirents = s.dirents ++ ds') ∧
      s'.isEmpty = (s.isEmpty && ds.all (noBlob getData)) := by
  induction ds generalizing s with
  | nil =>
    cases h
    exact ⟨⟨[], .nil, (List.append_nil _).symm⟩, by simp⟩
  | cons d ds ih =>
    have hgood : ¬ s.out.fail = true := fun hbad => by
      rw [addDirents_fail hbad h] at hfail
      cases hfail
    rw [addDirents, if_neg hgood] at h
    obtain ⟨s₁, hstep, h⟩ := Fallible.bind_eq_ok.mp h
    obtain ⟨⟨d', hd', hdirents⟩, hempty⟩ := addDirent_entry hstep
    obtain ⟨⟨ds', hds', hdirents'⟩, hempty'⟩ := ih h
    refine ⟨⟨d' :: ds', .cons hd' hds', ?_⟩, ?_⟩
    · rw [hdirents', hdirents]
      simp
    · rw [hempty', hempty, List.all_cons, Bool.and_assoc]

/-- What `createClusters` does to the entries and the other members. -/
theorem createClusters_entries {zc' : ZimCreator} {tmpfile : Bytes}
    (h : zc.createClusters build getData = .ok (zc', tmpfile)) :
    List.Forall₂ Renumbered zc.dirents zc'.dirents ∧
      zc'.isEmpty = (zc.isEmpty && zc.dirents.all (noBlob getData)) ∧
      zc'.titleIdx = zc.titleIdx ∧ zc'.mimeTypes = zc.mimeTypes := by
  unfold createClusters at h
  obtain ⟨s, hloop, h⟩ := Fallible.bind_eq_ok.mp h
  obtain ⟨s', hclose, h⟩ := Fallible.bind_eq_ok.mp h
  split at h
  next => cases h
  next hgood =>
    cases h
    obtain ⟨hdirents, hempty⟩ := closeCluster_keeps hclose
    have hfail : s.out.fail = false := by
      rw [closeCluster] at hclose
      split at hclose
      · obtain ⟨_, -, hgood, -⟩ := writeCluster_ok hclose (eq_false_of_ne_true hgood)
        exact hgood
      · cases hclose
        exact eq_false_of_ne_true hgood
    obtain ⟨⟨ds', hds', hdirents'⟩, hempty'⟩ := addDirents_entries hloop hfail
    rw [List.nil_append] at hdirents'
    refine ⟨?_, ?_, rfl, rfl⟩
    · rw [hdirents, hdirents']
      exact hds'
    · rw [hempty, hempty']

end Entries

end ZimCreator
end Zim.Writer
