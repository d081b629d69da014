import Mathlib.Data.List.Induction
import Zim.Writer.Layout
import Zim.Writer.TitleIndex
import Zim.Reader.Open

/-! The layout of an archive agrees with its header. -/
namespace Zim.Writer
open Cxx Stateful
namespace ZimCreator
variable {std : StdSort} {build : Build} {minChunkSize : UInt32} {compression : CompressionType}
  {src : ArticleSource} {zc : ZimCreator} {tmpfile : Bytes}

section Prepared

/-- The creators on the way to `write`: behind `createDirents`, and behind `createClusters`. -/
theorem prepare_ok (h : prepare std build minChunkSize compression src = .ok (zc, tmpfile)) :
    ∃ zc₁ zc₂, (new minChunkSize compression).createDirents std src = .ok zc₁ ∧
      (zc₁.createTitleIndex std).createClusters build src.getData = .ok (zc₂, tmpfile) ∧
      zc = zc₂.fillHeader src := by
  unfold prepare at h
  obtain ⟨zc₁, hdirents, h⟩ := Fallible.bind_eq_ok.mp h
  obtain ⟨⟨zc₂, tmpfile'⟩, hclusters, h⟩ := Fallible.bind_eq_ok.mp h
  cases h
  exact ⟨zc₁, zc₂, hdirents, hclusters, rfl⟩

theorem prepare_filled (h : prepare std build minChunkSize compression src = .ok (zc, tmpfile)) :
    zc.Filled := by
  obtain ⟨_, zc₂, -, -, rfl⟩ := prepare_ok h
  exact fillHeader_filled _ src

theorem Made.renumbered {mimeTypes : List Bytes} {a : ArticleSource.Article} {d d' : Dirent}
    (h : Made mimeTypes a d) (hd : Renumbered d d') : Made mimeTypes a d' := by
  rcases hd with rfl | ⟨-, k, b, rfl⟩
  · exact h
  · exact h.setCluster k b

theorem prepare_made (h : prepare std build minChunkSize compression src = .ok (zc, tmpfile)) :
    ∃ as, as.Perm (keptArticles src) ∧ List.Forall₂ (Made zc.mimeTypes) as zc.dirents := by
  obtain ⟨zc₁, zc₂, hdirents, hclusters, rfl⟩ := prepare_ok h
  obtain ⟨as, hperm, hmade⟩ := createDirents_made hdirents ⟨rfl, rfl⟩
  obtain ⟨hentries, -, -, hmime⟩ := createClusters_entries hclusters
  refine ⟨as, hperm, List.forall₂_iff_get.mpr ⟨?_, fun i hi hi' => ?_⟩⟩
  · exact hmade.length_eq.trans hentries.length_eq
  · have hlen := hmade.length_eq ▸ hi
    rw [show (zc₂.fillHeader src).mimeTypes = zc₁.mimeTypes from hmime]
    exact Made.renumbered (hmade.get hi hlen) (hentries.get hlen hi')

/-- What is said of all entries may be said of all articles that have one. -/
theorem made_forall_iff {as : List ArticleSource.Article} (hperm : as.Perm (keptArticles src))
    (hmade : List.Forall₂ (Made zc.mimeTypes) as zc.dirents) {P : Dirent → Prop}
    {Q : ArticleSource.Article → Prop} (hPQ : ∀ a d, Made zc.mimeTypes a d → (P d ↔ Q a)) :
    (∀ d ∈ zc.dirents, P d) ↔ ∀ a ∈ keptArticles src, Q a := by
  constructor
  · intro hall a ha
    obtain ⟨i, hi, rfl⟩ := List.getElem_of_mem (hperm.mem_iff.mpr ha)
    have hi' := hmade.length_eq ▸ hi
    exact (hPQ _ _ (hmade.get hi hi')).mp (hall _ (List.getElem_mem hi'))
  · intro hall d hd
    obtain ⟨i, hi, rfl⟩ := List.getElem_of_mem hd
    have hi' := hmade.length_eq.symm ▸ hi
    exact (hPQ _ _ (hmade.get hi' hi)).mpr (hall _ (hperm.mem_iff.mp (List.getElem_mem hi')))

theorem prepare_titleIdx (h : prepare std build minChunkSize compression src = .ok (zc, tmpfile)) :
    zc.titleIdx.length = zc.dirents.length := by
  obtain ⟨zc₁, zc₂, -, hclusters, rfl⟩ := prepare_ok h
  obtain ⟨hentries, -, htitle, -⟩ := createClusters_entries hclusters
  have hsort := (StdSort.sort_perm (compareTitle_iff zc₁.dirents) std
    (l := zc₁.dirents.map fun di => di.idx)).length_eq
  have hlen := hentries.length_eq
  rw [show (zc₂.fillHeader src).titleIdx = _ from htitle]
  rw [List.length_map] at hsort
  exact hsort.trans hlen

theorem mem_keptArticles {a : ArticleSource.Article} (ha : a ∈ src.articles)
    (hr : a.redirect = false) : a ∈ keptArticles src := by
  refine mem_keptArticles_iff.mpr ⟨ha, ?_⟩
  rintro ⟨htarget⟩
  simp [ArticleSource.Article.target, hr] at htarget

theorem keptArticles_eq_self (h : ∀ a ∈ src.articles, a.redirect = false) :
    keptArticles src = src.articles := by
  apply List.filter_eq_self.mpr
  intro a ha
  exact (List.mem_filter.mp (mem_keptArticles ha (h a ha))).2

theorem keptArticles_subset : keptArticles src ⊆ src.articles := List.filter_sublist.subset

/-- What holds of every redirect holds of all articles if it holds of those that are kept. -/
theorem keptArticles_forall_iff {Q : ArticleSource.Article → Prop}
    (hredirect : ∀ a, a.redirect = true → Q a) :
    (∀ a ∈ keptArticles src, Q a) ↔ ∀ a ∈ src.articles, Q a := by
  constructor
  · intro hall a ha
    by_cases hr : a.redirect = true
    · exact hredirect a hr
    · exact hall a (mem_keptArticles ha (eq_false_of_ne_true hr))
  · intro hall a ha
    exact hall a (keptArticles_subset ha)

/-- The clusters are left out of the archive if no article has any data. -/
theorem prepare_isEmpty (h : prepare std build minChunkSize compression src = .ok (zc, tmpfile)) :
    zc.isEmpty = true ↔
      ∀ a ∈ src.articles, a.redirect = true ∨ (src.getData a.aid).val = [] := by
  obtain ⟨zc₁, zc₂, hdirents, hclusters, rfl⟩ := prepare_ok h
  obtain ⟨as, hperm, hmade⟩ := createDirents_made hdirents ⟨rfl, rfl⟩
  obtain ⟨-, -, -, hzc₁, -⟩ := createDirents_stages hdirents ⟨rfl, rfl⟩
  obtain ⟨-, hempty, -, -⟩ := createClusters_entries hclusters
  have hstart : (zc₁.createTitleIndex std).isEmpty = true := by
    rw [hzc₁]
    rfl
  have hnoBlob {a : ArticleSource.Article} {d : Dirent} (hm : Made zc₁.mimeTypes a d) :
      noBlob src.getData d = true ↔ a.redirect = true ∨ (src.getData a.aid).val = [] := by
    simp [noBlob, Zim.Dirent.isRedirect, hm.redirect, hm.aid]
  have hall : (zc₂.fillHeader src).isEmpty = zc₁.dirents.all (noBlob src.getData) := by
    rw [show (zc₂.fillHeader src).isEmpty = _ from hempty, hstart, Bool.true_and]
    rfl
  rw [hall, List.all_eq_true, made_forall_iff hperm hmade fun a d hm => hnoBlob hm]
  exact keptArticles_forall_iff fun a hr => .inl hr

theorem placed_length (groups : List (List Dirent)) :
    (placed groups).length = (groups.map List.length).sum := by
  induction groups using List.reverseRecOn with
  | nil => rfl
  | append_singleton groups group ih => simp [placed_concat, ih]

/-- Every cluster has an article. -/
theorem Packed.groups_length_le {getData : Bytes → Blob} {zc zc' : ZimCreator}
    {groups : List (List Dirent)} {chunks : List Bytes}
    (h : Packed build getData zc zc' tmpfile groups chunks) :
    groups.length ≤ (articles zc'.dirents).length := by
  rw [h.places, placed_length]
  have hpos : ∀ group ∈ groups, 1 ≤ group.length := fun group hgroup =>
    List.length_pos_iff.mpr (h.kinds group hgroup).1
  have hle := List.length_le_sum_of_one_le (groups.map List.length) (by simpa using hpos)
  simpa using hle

theorem Packed.clustersSize_toNat {getData : Bytes → Blob} {zc zc' : ZimCreator}
    {groups : List (List Dirent)} {chunks : List Bytes}
    (h : Packed build getData zc zc' tmpfile groups chunks) :
    zc'.clustersSize.toNat = tmpfile.length := by
  have hsize := h.size
  rw [h.clustersSize]
  exact UInt64.toNat_ofNat_of_lt' (by simp only [UInt64.size, maxOffset] at *; omega)

/-- The clusters of a creator with fewer than 2^32 entries. -/
theorem prepare_packed (h : prepare std build minChunkSize compression src = .ok (zc, tmpfile))
    (hcount : zc.dirents.length < 2 ^ 32) :
    ∃ zc₁, (new minChunkSize compression).createDirents std src = .ok zc₁ ∧
      ∃ groups chunks,
        Packed build src.getData (zc₁.createTitleIndex std) zc tmpfile groups chunks ∧
        (Small src.getData (groupsOf src.getData zc₁) → groups = groupsOf src.getData zc₁) := by
  obtain ⟨zc₁, zc₂, hdirents, hclusters, rfl⟩ := prepare_ok h
  obtain ⟨-, -, -, hzc₁, -⟩ := createDirents_stages hdirents ⟨rfl, rfl⟩
  obtain ⟨hentries, -⟩ := createClusters_entries hclusters
  have hnew : (zc₁.createTitleIndex std).clusterOffsets = [] := by
    rw [hzc₁]
    rfl
  have hlen : (zc₁.createTitleIndex std).dirents.length < 2 ^ 32 := by
    rw [hentries.length_eq]
    exact hcount
  obtain ⟨groups, chunks, hpacked, hgroups⟩ := createClusters_packed hnew (.inl hlen) hclusters
  exact ⟨zc₁, hdirents, groups, chunks, ⟨hpacked.content, hpacked.offsets, hpacked.entries,
    hpacked.places, hpacked.serialized, hpacked.kinds, hpacked.size, hpacked.clustersSize⟩, hgroups⟩

end Prepared

section Sizes

/-- What a source must not exceed, and that it brings data if it has articles at all. -/
structure Fits (src : ArticleSource) : Prop where
  count : (keptArticles src).length < 2 ^ 32
  sizes : ∀ a ∈ keptArticles src, a.size < 2 ^ 32
  data : (∃ a ∈ src.articles, a.redirect = false ∧ (src.getData a.aid).val ≠ []) ∨
    ∀ a ∈ src.articles, a.redirect = true

/-- The same, for the creator of which the archive is written. -/
structure CreatorFits (zc : ZimCreator) : Prop where
  count : zc.dirents.length < 2 ^ 32
  sizes : ∀ d ∈ zc.dirents, d.size < 2 ^ 32
  data : zc.isEmpty = false ∨ articles zc.dirents = []

theorem prepare_fits (h : prepare std build minChunkSize compression src = .ok (zc, tmpfile)) :
    CreatorFits zc ↔ Fits src := by
  obtain ⟨as, hperm, hmade⟩ := prepare_made h
  have hempty := prepare_isEmpty h
  have hcount : zc.dirents.length = (keptArticles src).length :=
    hmade.length_eq.symm.trans hperm.length_eq
  have hsizes : (∀ d ∈ zc.dirents, d.size < 2 ^ 32) ↔ ∀ a ∈ keptArticles src, a.size < 2 ^ 32 :=
    made_forall_iff hperm hmade fun a d hm => by rw [hm.size]
  have hredirects : articles zc.dirents = [] ↔ ∀ a ∈ src.articles, a.redirect = true := by
    have hkept : (∀ d ∈ zc.dirents, d.isRedirect = true) ↔
        ∀ a ∈ keptArticles src, a.redirect = true :=
      made_forall_iff hperm hmade fun a d hm => by rw [Zim.Dirent.isRedirect, hm.redirect]
    have hnil : articles zc.dirents = [] ↔ ∀ d ∈ zc.dirents, d.isRedirect = true := by
      simp [articles, List.filter_eq_nil_iff]
    rw [hnil, hkept]
    exact keptArticles_forall_iff fun a hr => hr
  have hdata : zc.isEmpty = false ↔
      ∃ a ∈ src.articles, a.redirect = false ∧ (src.getData a.aid).val ≠ [] := by
    rw [← Bool.not_eq_true, hempty]
    simp
  constructor
  · intro hfits
    refine ⟨hcount ▸ hfits.count, hsizes.mp hfits.sizes, ?_⟩
    exact hfits.data.imp hdata.mp hredirects.mp
  · intro hfits
    refine ⟨hcount.symm ▸ hfits.count, hsizes.mpr hfits.sizes, ?_⟩
    exact hfits.data.imp hdata.mpr hredirects.mpr

end Sizes
section LaidOut
variable {md5 : Bytes → { bs : Bytes // bs.length = 16 }} {content : Bytes}

/-- The layout that the header `fh` describes, in the content written for the creator `zc`. -/
structure LaidOut (build : Build) (md5 : Bytes → { bs : Bytes // bs.length = 16 })
    (zc : ZimCreator) (tmpfile content : Bytes) (fh : Fileheader) : Prop where
  written : content =
    (zc.parts build tmpfile).body ++ (md5 (zc.parts build tmpfile).body).val
  /-- The pointers lead to where the entries were written. -/
  urlPtr : ∀ i < zc.dirents.length, pointer content fh.urlPtrPos i =
    (zc.parts build tmpfile).entriesStart + Chunks.start (zc.parts build tmpfile).entries i
  titleIdx : fh.titleIdxPos.toNat = (zc.parts build tmpfile).titleIdxStart
  /-- The pointers lead to where the clusters of the temporary file were written. -/
  clusterPtr : ∃ clusters : List Bytes, tmpfile = clusters.flatten ∧
    zc.clusterOffsets.length = clusters.length ∧
    (∀ bs ∈ clusters, ∃ c, ClusterImpl.put build c = .ok bs) ∧
    ∀ k bs, clusters[k]? = some bs →
      pointer content fh.clusterPtrPos k =
        (zc.parts build tmpfile).clusterDataStart + Chunks.start clusters k ∧
      bs <+: (zc.parts build tmpfile).body.drop
        ((zc.parts build tmpfile).clusterDataStart + Chunks.start clusters k)
  checksum : fh.getChecksumPos.toNat = (zc.parts build tmpfile).body.length
  verified : ∀ direntCache clusterCache, ∃ f,
    FileImpl.new build content direntCache clusterCache = .ok f ∧
      outcome (FileImpl.verify md5 f) = .ok true

theorem hasChecksum_of_filled (h : zc.Filled) : zc.header.hasChecksum = true := by
  rw [Fileheader.hasChecksum, h.mimeListPos]
  decide

theorem getChecksumPos_of_filled (h : zc.Filled) : zc.header.getChecksumPos = zc.checksumPos := by
  rw [Fileheader.getChecksumPos, if_pos (hasChecksum_of_filled h), h.checksumPos]

/-- The title index is where the header says only for fewer than 2^32 entries. -/
theorem LaidOut.count (h : LaidOut build md5 zc tmpfile content zc.header) (hfilled : zc.Filled)
    (hsized : Sized build zc tmpfile) : zc.dirents.length < 2 ^ 32 := by
  have htitle := h.titleIdx
  obtain ⟨-, hstart, -⟩ := hsized.starts
  obtain ⟨hurl, htitle', -⟩ := hsized.positions
  rw [hfilled.titleIdxPos] at htitle
  omega

theorem LaidOut.fits (h : LaidOut build md5 zc tmpfile content zc.header) (hfilled : zc.Filled)
    (hsized : Sized build zc tmpfile) {zc₁ : ZimCreator} {getData : Bytes → Blob}
    {groups : List (List Dirent)} {chunks : List Bytes}
    (hpacked : Packed build getData zc₁ zc tmpfile groups chunks)
    (hcount : zc.dirents.length < 2 ^ 32) : CreatorFits zc := by
  obtain ⟨clusters, htmp, hlen, hput, hptr⟩ := h.clusterPtr
  have hgroups : zc.clusterOffsets.length = groups.length := by
    rw [hpacked.offsets, List.length_map, Chunks.starts_length, hpacked.serialized.length_eq]
  -- without their data in the file no cluster is where its pointer leads
  have hdata : zc.isEmpty = false ∨ clusters = [] := by
    by_cases hempty : zc.isEmpty = true
    · right
      cases clusters with
      | nil => rfl
      | cons bs clusters =>
        obtain ⟨c, hc⟩ := hput bs List.mem_cons_self
        obtain ⟨-, hprefix⟩ := hptr 0 bs rfl
        have hnil : (zc.parts build tmpfile).clusterData = [] := if_pos hempty
        rw [Chunks.start_zero, List.drop_eq_nil_of_le, List.prefix_nil] at hprefix
        · exact absurd hprefix (ClusterImpl.put_ne_nil hc)
        · rw [Parts.body_length, hnil]
          exact le_rfl
    · exact .inl (eq_false_of_ne_true hempty)
  have hclusterData : (zc.parts build tmpfile).clusterData = tmpfile := by
    rcases hdata with hfull | hnone
    · simp [parts, hfull]
    · rw [htmp, hnone]
      simp [parts]
  refine ⟨hcount, ?_, hdata.imp id fun hnone => ?_⟩
  · obtain ⟨hurl, htitle, hentries, hptrs, hstart, hend⟩ := hsized.starts
    obtain ⟨hurl', htitle', hindex', hptrs'⟩ := hsized.positions
    have hchecksum' := hsized.checksumPos hpacked.clustersSize_toNat hpacked.size
    have hclusters := hpacked.groups_length_le
    have hle : (articles zc.dirents).length ≤ zc.dirents.length := List.length_filter_le _ _
    have hchecksum := h.checksum
    rw [getChecksumPos_of_filled hfilled, Parts.body_length, hclusterData] at hchecksum
    rw [Nat.mod_eq_of_lt hcount] at htitle' hindex'
    rw [Nat.mod_eq_of_lt (by omega)] at hchecksum'
    have hsum : (zc.dirents.map fun di => di.size).sum ≤
        (zc.dirents.map fun di => di.size % 2 ^ 32).sum := by
      have hcounted : (zc.dirents.map fun di => di.size % 2 ^ 32).sum =
        countedSize zc.dirents := rfl
      omega
    intro d hd
    have heq := eq_of_sum_le (fun d _ => Nat.mod_le d.size (2 ^ 32)) hsum d hd
    rw [← heq]
    exact Nat.mod_lt _ (by decide)
  · have hzero : groups.length = 0 := by rw [← hgroups, hlen, hnone, List.length_nil]
    have hplaces := hpacked.places
    rw [List.length_eq_zero_iff.mp hzero] at hplaces
    exact hplaces

end LaidOut

section Pointers

theorem field_flatMap {α : Type} {f : α → Bytes} {w : ℕ} (hf : ∀ a, (f a).length = w)
    {l : List α} {i : ℕ} {a : α} (hi : l[i]? = some a) (front back : Bytes) :
    field (front ++ (l.flatMap f ++ back)) (front.length + w * i) w = f a := by
  have hchunk : (l.map f)[i]? = some (f a) := by rw [List.getElem?_map, hi]; rfl
  obtain ⟨hlt, -⟩ := List.getElem?_eq_some_iff.mp hi
  have hstart : Chunks.start (l.map f) i = w * i := by
    have htake := flatMap_length hf (l.take i)
    rw [List.length_take, Nat.min_eq_left hlt.le] at htake
    rw [Chunks.start, ← List.map_take, ← List.flatMap_def, htake, Nat.mul_comm]
  have hdrop := Chunks.drop_start hchunk
  have hlen : w * i ≤ (l.flatMap f).length := by
    rw [flatMap_length hf, Nat.mul_comm]
    exact Nat.mul_le_mul_right w hlt.le
  rw [hstart, ← List.flatMap_def] at hdrop
  rw [field_skip (Nat.le_add_right _ _), Nat.add_sub_cancel_left, field,
    List.drop_append_of_le_length hlen, hdrop, List.append_assoc]
  exact List.take_left' (hf a)

theorem pointer_flatMap {α : Type} {f : α → UInt64} {l : List α} {i : ℕ} {a : α}
    (hi : l[i]? = some a) {pos : UInt64} {front back : Bytes} (hpos : pos.toNat = front.length) :
    pointer (front ++ (l.flatMap (fun a => offsetTypeBytes build.host (f a)) ++ back)) pos i =
      (f a).toNat := by
  have hlt : (f a).toNat < 256 ^ 8 := (f a).toNat_lt
  rw [pointer, hpos, field_flatMap (fun a => offsetTypeBytes_length build.host (f a)) hi,
    offsetTypeBytes, littleEndianBytes_eq, LittleEndian.decode_encode_of_lt hlt]

theorem getElem?_urlOffsets {ds : List Dirent} {i : ℕ} (hi : i < ds.length) (off : UInt64) :
    (urlOffsets off ds)[i]? = some (endOffset off (ds.take i)) := by
  induction ds generalizing i off with
  | nil => exact absurd hi (Nat.not_lt_zero _)
  | cons d ds ih =>
    cases i with
    | zero => rfl
    | succ i => exact ih (Nat.succ_lt_succ_iff.mp hi) _

theorem start_entries (i : ℕ) : Chunks.start (zc.parts build tmpfile).entries i =
    ((zc.dirents.take i).map fun di => di.size).sum := by
  simp only [Chunks.start, parts, List.length_flatten, ← List.map_take, List.map_map]
  congr 1
  exact List.map_congr_left fun di _ => Zim.Dirent.write_length build.host di.toDirent

theorem countedSize_eq {ds : List Dirent} (h : ∀ d ∈ ds, d.size < 2 ^ 32) :
    countedSize ds = (ds.map fun di => di.size).sum :=
  congrArg List.sum (List.map_congr_left fun d hd => Nat.mod_eq_of_lt (h d hd))

end Pointers

section Leads

/-- The positions in the header lead to the parts in front of the clusters. -/
structure Leads (build : Build) (zc : ZimCreator) (tmpfile : Bytes) : Prop where
  urlPtr : zc.urlPtrPos.toNat = (zc.parts build tmpfile).urlPtrStart
  titleIdx : zc.titleIdxPos.toNat = (zc.parts build tmpfile).titleIdxStart
  entries : zc.indexPos.toNat = (zc.parts build tmpfile).entriesStart

theorem Sized.leads (hsized : Sized build zc tmpfile) (hcount : zc.dirents.length < 2 ^ 32) :
    Leads build zc tmpfile := by
  obtain ⟨hurl, htitle, hentries, -⟩ := hsized.starts
  obtain ⟨hurl', htitle', hindex', -⟩ := hsized.positions
  rw [Nat.mod_eq_of_lt hcount] at htitle' hindex'
  exact ⟨hurl', by omega, by omega⟩

/-- The offset that the first `i` entries end at. -/
theorem Leads.endOffset_take (h : Leads build zc tmpfile) (hsized : Sized build zc tmpfile)
    (hsizes : ∀ d ∈ zc.dirents, d.size < 2 ^ 32) (i : ℕ) :
    (endOffset zc.indexPos (zc.dirents.take i)).toNat =
      (zc.parts build tmpfile).entriesStart + Chunks.start (zc.parts build tmpfile).entries i := by
  obtain ⟨-, -, -, hptrs, hdata, hend⟩ := hsized.starts
  have hle := Chunks.start_le (zc.parts build tmpfile).entries i
  rw [entries_length] at hle
  have hcounted : countedSize (zc.dirents.take i) =
      Chunks.start (zc.parts build tmpfile).entries i := by
    rw [countedSize_eq (fun d hd => hsizes d (List.mem_of_mem_take hd)), start_entries]
  simp only [maxOffset] at hend
  rw [endOffset_toNat (by rw [hcounted, h.entries]; omega), h.entries, hcounted]

/-- The url pointers of an archive whose positions lead to its entries. -/
theorem Leads.pointer_entry (h : Leads build zc tmpfile) (hsized : Sized build zc tmpfile)
    (hsizes : ∀ d ∈ zc.dirents, d.size < 2 ^ 32) {i : ℕ} (hi : i < zc.dirents.length)
    (digest : Bytes) :
    pointer ((zc.parts build tmpfile).body ++ digest) zc.urlPtrPos i =
      (zc.parts build tmpfile).entriesStart +
        Chunks.start (zc.parts build tmpfile).entries i := by
  have hbody : (zc.parts build tmpfile).body ++ digest =
      ((zc.parts build tmpfile).header ++ (zc.parts build tmpfile).mimeList) ++
      ((urlOffsets zc.indexPos zc.dirents).flatMap (fun off => offsetTypeBytes build.host off) ++
        ((zc.parts build tmpfile).titleIdx ++ (zc.parts build tmpfile).entries.flatten ++
          (zc.parts build tmpfile).clusterPtrs ++ (zc.parts build tmpfile).clusterData ++
            digest)) := by
    simp [Parts.body, parts]
  rw [hbody, pointer_flatMap (getElem?_urlOffsets hi _) h.urlPtr,
    h.endOffset_take hsized hsizes]

end Leads

section Exact
variable {md5 : Bytes → { bs : Bytes // bs.length = 16 }} {content : Bytes} {zc₁ : ZimCreator}
  {getData : Bytes → Blob} {groups : List (List Dirent)} {chunks : List Bytes}

/-- The positions in the header are the ones at which the parts are written. -/
structure Exact (build : Build) (zc : ZimCreator) (tmpfile : Bytes) : Prop where
  urlPtr : zc.urlPtrPos.toNat = (zc.parts build tmpfile).urlPtrStart
  titleIdx : zc.titleIdxPos.toNat = (zc.parts build tmpfile).titleIdxStart
  entries : zc.indexPos.toNat = (zc.parts build tmpfile).entriesStart
  clusterPtr : zc.clusterPtrPos.toNat = (zc.parts build tmpfile).clusterPtrStart
  checksum : zc.checksumPos.toNat = (zc.parts build tmpfile).body.length
  data : (zc.parts build tmpfile).clusterData = tmpfile

theorem CreatorFits.exact (h : CreatorFits zc) (hsized : Sized build zc tmpfile)
    (hpacked : Packed build getData zc₁ zc tmpfile groups chunks) : Exact build zc tmpfile := by
  obtain ⟨-, -, -, hptrs, hstart, -⟩ := hsized.starts
  obtain ⟨-, -, -, hptrs'⟩ := hsized.positions
  obtain ⟨hurl, htitle, hentries⟩ := hsized.leads h.count
  have hchecksum' := hsized.checksumPos hpacked.clustersSize_toNat hpacked.size
  have hgroups : zc.clusterOffsets.length = groups.length := by
    rw [hpacked.offsets, List.length_map, Chunks.starts_length, hpacked.serialized.length_eq]
  have hclusters := hpacked.groups_length_le
  have hle : (articles zc.dirents).length ≤ zc.dirents.length := List.length_filter_le _ _
  have hcount := h.count
  have hdata : (zc.parts build tmpfile).clusterData = tmpfile := by
    rcases h.data with hfull | hnone
    · simp [parts, hfull]
    · rw [hnone] at hclusters
      have hnil : chunks = [] := by
        have hlen := hpacked.serialized.length_eq
        exact List.length_eq_zero_iff.mp (by simpa [← hlen] using hclusters)
      have htmp : tmpfile = [] := by rw [hpacked.content, hnil, List.flatten_nil]
      simp [parts, htmp]
  have hcounted := countedSize_eq h.sizes
  rw [Nat.mod_eq_of_lt (by omega)] at hchecksum'
  have hbody := (zc.parts build tmpfile).body_length
  rw [hdata] at hbody
  exact ⟨hurl, htitle, hentries, by omega, by omega, hdata⟩

theorem Exact.leads (h : Exact build zc tmpfile) : Leads build zc tmpfile :=
  ⟨h.urlPtr, h.titleIdx, h.entries⟩

/-- The cluster pointers of an archive whose positions are exact. -/
theorem Exact.pointer_cluster (h : Exact build zc tmpfile) (hsized : Sized build zc tmpfile)
    (hsizes : ∀ d ∈ zc.dirents, d.size < 2 ^ 32) {k : ℕ} {off : UInt64}
    (hk : zc.clusterOffsets[k]? = some off) (hoff : off.toNat ≤ tmpfile.length)
    (digest : Bytes) :
    pointer ((zc.parts build tmpfile).body ++ digest) zc.clusterPtrPos k =
      (zc.parts build tmpfile).clusterDataStart + off.toNat := by
  obtain ⟨-, -, -, hptrs, hdata, hend⟩ := hsized.starts
  rw [h.data] at hend
  simp only [maxOffset] at hend
  have hstart : (endOffset zc.indexPos zc.dirents).toNat =
      (zc.parts build tmpfile).clusterPtrStart := by
    have htake := h.leads.endOffset_take hsized hsizes zc.dirents.length
    rw [List.take_length, start_entries, List.take_length] at htake
    omega
  have hbody : (zc.parts build tmpfile).body ++ digest =
      ((zc.parts build tmpfile).header ++ (zc.parts build tmpfile).mimeList ++
        (zc.parts build tmpfile).urlPtrs ++ (zc.parts build tmpfile).titleIdx ++
        (zc.parts build tmpfile).entries.flatten) ++
      (zc.clusterOffsets.flatMap (fun o => offsetTypeBytes build.host
          (endOffset zc.indexPos zc.dirents + UInt64.ofNat zc.clusterOffsets.length * 8 + o)) ++
        ((zc.parts build tmpfile).clusterData ++ digest)) := by
    simp [Parts.body, parts]
  have hfront : zc.clusterPtrPos.toNat = ((zc.parts build tmpfile).header ++
      (zc.parts build tmpfile).mimeList ++ (zc.parts build tmpfile).urlPtrs ++
      (zc.parts build tmpfile).titleIdx ++ (zc.parts build tmpfile).entries.flatten).length := by
    rw [h.clusterPtr]
    simp [Parts.clusterPtrStart, Parts.entriesStart, Parts.titleIdxStart, Parts.urlPtrStart,
      Nat.add_assoc]
  have hcount : (UInt64.ofNat zc.clusterOffsets.length).toNat = zc.clusterOffsets.length :=
    UInt64.toNat_ofNat_of_lt' (by simp only [UInt64.size]; omega)
  rw [hbody, pointer_flatMap hk hfront, UInt64.toNat_add, UInt64.toNat_add, UInt64.toNat_mul,
    hcount, hstart]
  simp only [UInt64.reduceToNat]
  omega

/-- The offsets of the clusters in the temporary file. -/
theorem Packed.offset (hpacked : Packed build getData zc₁ zc tmpfile groups chunks) {k : ℕ}
    (hk : k < chunks.length) : ∃ off, zc.clusterOffsets[k]? = some off ∧
      off.toNat = Chunks.start chunks k ∧ Chunks.start chunks k ≤ tmpfile.length := by
  have hle := Chunks.start_le chunks k
  have hsize := hpacked.size
  rw [← hpacked.content] at hle
  refine ⟨UInt64.ofNat (Chunks.start chunks k), ?_, ?_, hle⟩
  · rw [hpacked.offsets, List.getElem?_map, Chunks.getElem?_starts hk]
    rfl
  · exact UInt64.toNat_ofNat_of_lt' (by simp only [UInt64.size, maxOffset] at *; omega)

/-- The mime types behind the header. -/
theorem drop_header {digest : Bytes}
    (hwritten : content = (zc.parts build tmpfile).body ++ digest) :
    content.drop 80 = zc.mimeTypes.flatMap (fun m => m ++ [0]) ++ 0 ::
      ((zc.parts build tmpfile).urlPtrs ++ (zc.parts build tmpfile).titleIdx ++
        (zc.parts build tmpfile).entries.flatten ++ (zc.parts build tmpfile).clusterPtrs ++
        (zc.parts build tmpfile).clusterData ++ digest) := by
  have hheader : (zc.parts build tmpfile).header.length = 80 :=
    Fileheader.write_length build.host zc.header
  have hmime : (zc.parts build tmpfile).mimeList =
      zc.mimeTypes.flatMap (fun m => m ++ [0]) ++ [0] := rfl
  rw [hwritten, Parts.body, ← hheader, hmime]
  simp only [List.append_assoc, List.drop_left, List.cons_append, List.nil_append]

/-- The header that is read back from an archive. -/
theorem read_header {digest : Bytes}
    (hwritten : content = (zc.parts build tmpfile).body ++ digest) :
    ∃ rest, content = zc.header.write build.host ++ rest ∧
      Fileheader.read build.host ⟨content, false⟩ = (some zc.header, ⟨rest, false⟩) := by
  have hheader : content = zc.header.write build.host ++
      ((zc.parts build tmpfile).mimeList ++ (zc.parts build tmpfile).urlPtrs ++
        (zc.parts build tmpfile).titleIdx ++ (zc.parts build tmpfile).entries.flatten ++
        (zc.parts build tmpfile).clusterPtrs ++ (zc.parts build tmpfile).clusterData ++
        digest) := by
    rw [hwritten]
    simp only [Parts.body, List.append_assoc]
    rfl
  exact ⟨_, hheader, hheader ▸ Fileheader.read_write build.host zc.header _⟩

/-- An archive whose positions are exact is opened. -/
theorem Exact.opens (h : Exact build zc tmpfile) (hfilled : zc.Filled)
    (hsized : Sized build zc tmpfile) (hfits : CreatorFits zc)
    (hpacked : Packed build getData zc₁ zc tmpfile groups chunks)
    (hwritten : content =
      (zc.parts build tmpfile).body ++ (md5 (zc.parts build tmpfile).body).val)
    {l : List Bytes} {rest : Bytes} (hl : ∀ m ∈ l, m ≠ [] ∧ 0 ∉ m)
    (hmime : content.drop 80 = l.flatMap (fun m => m ++ [0]) ++ 0 :: rest)
    (direntCache clusterCache : ℕ) :
    ∃ f, FileImpl.new build content direntCache clusterCache = .ok f ∧ f.header = zc.header ∧
      f.mimeTypes = l := by
  have hdigest := (md5 (zc.parts build tmpfile).body).property
  have hlen : content.length = (zc.parts build tmpfile).body.length + 16 := by
    rw [hwritten, List.length_append, hdigest]
  have hbody := hsized.body
  have hdata := (zc.parts build tmpfile).body_length
  rw [h.data] at hdata
  have hgroups : zc.clusterOffsets.length = chunks.length := by
    rw [hpacked.offsets, List.length_map, Chunks.starts_length]
  have hclusters := hpacked.groups_length_le
  rw [hpacked.serialized.length_eq] at hclusters
  have hle : (articles zc.dirents).length ≤ zc.dirents.length := List.length_filter_le _ _
  have hcount := hfits.count
  obtain ⟨-, -, -, -, hptrs, -⟩ := hsized.starts
  simp only [maxOffset] at hbody
  obtain ⟨behind, hheader, hread⟩ := read_header hwritten
  have hpos : zc.header.mimeListPos.toNat = 80 := by
    rw [hfilled.mimeListPos]
    rfl
  have h80 : 80 ≤ content.length := by
    rw [hheader, List.length_append, Fileheader.write_length]
    exact Nat.le_add_right _ _
  refine FileImpl.new_of hread (by omega) (fun hne => ?_) (by rw [hpos]; exact h80) hl
    (by rw [hpos]; exact hmime)
  have hc : zc.header.clusterCount.toNat = chunks.length := by
    rw [hfilled.clusterCount, ← hgroups]
    exact UInt32.toNat_ofNat_of_lt' (by simp only [UInt32.size]; omega)
  have hchunks : chunks.length ≠ 0 := by
    rw [← hc]
    exact fun hzero => hne (UInt32.toNat_inj.mp hzero)
  have hlast : (zc.header.clusterCount - 1).toNat = chunks.length - 1 := by
    have hone : (1 : UInt32) ≤ zc.header.clusterCount :=
      UInt32.le_iff_toNat_le.mpr (by rw [hc, UInt32.toNat_one]; omega)
    rw [UInt32.toNat_sub_of_le _ _ hone, hc, UInt32.toNat_one]
  obtain ⟨off, hoff, hstart, hbound⟩ := hpacked.offset (k := chunks.length - 1) (by omega)
  have hpointer := h.pointer_cluster hsized hfits.sizes hoff (by omega)
    (md5 (zc.parts build tmpfile).body).val
  rw [← hwritten, ← hfilled.clusterPtrPos] at hpointer
  have hptrPos : zc.header.clusterPtrPos.toNat = (zc.parts build tmpfile).clusterPtrStart := by
    rw [hfilled.clusterPtrPos, h.clusterPtr]
  refine ⟨_, ?_, Archive.offset_ok ?_ ?_⟩
  · rw [hlast, hpointer, UInt64.toNat_ofNat_of_lt' (by simp only [UInt64.size]; omega)]
    omega
  · rw [hptrPos, hlast]
    simp only
    omega
  · simp only
    omega

/-- The archive of a creator that fits is laid out as its header says. -/
theorem Exact.laidOut (h : Exact build zc tmpfile) (hfilled : zc.Filled)
    (hsized : Sized build zc tmpfile) (hfits : CreatorFits zc)
    (hpacked : Packed build getData zc₁ zc tmpfile groups chunks)
    (hwritten : content =
      (zc.parts build tmpfile).body ++ (md5 (zc.parts build tmpfile).body).val) :
    LaidOut build md5 zc tmpfile content zc.header where
  written := hwritten
  urlPtr i hi := by
    rw [hwritten, hfilled.urlPtrPos]
    exact h.leads.pointer_entry hsized hfits.sizes hi _
  titleIdx := by
    rw [hfilled.titleIdxPos]
    exact h.titleIdx
  clusterPtr := by
    refine ⟨chunks, hpacked.content, by rw [hpacked.offsets, List.length_map, Chunks.starts_length],
      fun bs hbs => ?_, fun k bs hk => ?_⟩
    · obtain ⟨k, hk, rfl⟩ := List.getElem_of_mem hbs
      have hk' : k < groups.length := hpacked.serialized.length_eq ▸ hk
      exact ⟨_, List.Forall₂.get hpacked.serialized hk' hk⟩
    · obtain ⟨hlt, -⟩ := List.getElem?_eq_some_iff.mp hk
      obtain ⟨off, hoff, hstart, hbound⟩ := hpacked.offset hlt
      have hpointer := h.pointer_cluster hsized hfits.sizes hoff (hstart ▸ hbound)
        (md5 (zc.parts build tmpfile).body).val
      rw [← hwritten, ← hfilled.clusterPtrPos, hstart] at hpointer
      refine ⟨hpointer, ?_⟩
      have hdrop := Chunks.drop_start hk
      rw [← hpacked.content] at hdrop
      rw [Parts.drop_clusterData, h.data, hdrop]
      exact List.prefix_append _ _
  checksum := by
    rw [getChecksumPos_of_filled hfilled]
    exact h.checksum
  verified direntCache clusterCache := by
    have hzero : zc.mimeTypes.flatMap (fun m => m ++ [0]) = [] ∨
        (zc.mimeTypes.flatMap fun m => m ++ [0]).getLast? = some 0 := by
      induction zc.mimeTypes using List.reverseRecOn with
      | nil => exact .inl rfl
      | append_singleton ms m ih => exact .inr (by simp)
    have hdrop := drop_header hwritten
    obtain ⟨l, rest, hl, hlines⟩ := FileImpl.exists_lines hzero _
    obtain ⟨f, hnew, hheader, -⟩ := h.opens hfilled hsized hfits hpacked hwritten hl
      (hdrop.trans hlines) direntCache clusterCache
    refine ⟨f, hnew, ?_⟩
    have hserves := FileImpl.new_serves hnew
    rw [hheader] at hserves
    refine (FileImpl.verify_runs md5 hwritten (hasChecksum_of_filled hfilled) ?_ f hserves).1
    rw [getChecksumPos_of_filled hfilled]
    exact h.checksum

end Exact

section Create
variable {md5 : Bytes → { bs : Bytes // bs.length = 16 }} {content : Bytes}

/-- The archive is laid out as the header read back from it says. -/
def SelfConsistent (std : StdSort) (build : Build)
    (md5 : Bytes → { bs : Bytes // bs.length = 16 }) (minChunkSize : UInt32)
    (compression : CompressionType) (src : ArticleSource) (content : Bytes) : Prop :=
  ∃ zc tmpfile fh, prepare std build minChunkSize compression src = .ok (zc, tmpfile) ∧
    (Fileheader.read build.host (.ofBytes content)).1 = some fh ∧
    LaidOut build md5 zc tmpfile content fh

theorem create_ok (h : create std build md5 minChunkSize compression src = .ok content) :
    ∃ zc tmpfile, prepare std build minChunkSize compression src = .ok (zc, tmpfile) ∧
      zc.Filled ∧ Sized build zc tmpfile ∧
      content = (zc.parts build tmpfile).body ++ (md5 (zc.parts build tmpfile).body).val ∧
      (Fileheader.read build.host (.ofBytes content)).1 = some zc.header := by
  unfold create at h
  obtain ⟨⟨zc, tmpfile⟩, hprepare, hwrite⟩ := Fallible.bind_eq_ok.mp h
  obtain ⟨hwritten, hbody⟩ := write_ok hwrite
  refine ⟨zc, tmpfile, hprepare, prepare_filled hprepare, ⟨hbody, prepare_titleIdx hprepare⟩,
    hwritten, ?_⟩
  obtain ⟨behind, -, hread⟩ := read_header hwritten
  rw [IStream.ofBytes, hread]

theorem SelfConsistent.fits
    (h : SelfConsistent std build md5 minChunkSize compression src content)
    (hcreate : create std build md5 minChunkSize compression src = .ok content) : Fits src := by
  obtain ⟨zc, tmpfile, hprepare, hfilled, hsized, -, hread⟩ := create_ok hcreate
  obtain ⟨zc', tmpfile', fh, hprepare', hread', hlaid⟩ := h
  rw [hprepare] at hprepare'
  cases hprepare'
  rw [hread] at hread'
  cases hread'
  have hcount := hlaid.count hfilled hsized
  obtain ⟨zc₁, -, groups, chunks, hpacked, -⟩ := prepare_packed hprepare hcount
  exact (prepare_fits hprepare).mp (hlaid.fits hfilled hsized hpacked hcount)

theorem Fits.selfConsistent (h : Fits src)
    (hcreate : create std build md5 minChunkSize compression src = .ok content) :
    SelfConsistent std build md5 minChunkSize compression src content := by
  obtain ⟨zc, tmpfile, hprepare, hfilled, hsized, hwritten, hread⟩ := create_ok hcreate
  have hfits := (prepare_fits hprepare).mpr h
  obtain ⟨zc₁, -, groups, chunks, hpacked, -⟩ := prepare_packed hprepare hfits.count
  have hexact := hfits.exact hsized hpacked
  exact ⟨zc, tmpfile, zc.header, hprepare, hread,
    hexact.laidOut hfilled hsized hfits hpacked hwritten⟩

/-- An article and a redirect to it. -/
def articleAndRedirect (getData : Bytes → Blob) : ArticleSource where
  articles := [⟨[1], 65, [98], [], false, [116], true, [], []⟩,
    ⟨[2], 65, [97], [120], true, [], false, [1], [7]⟩]
  getData
  uuid := zeroUuid
  mainPage := [1]
  layoutPage := []

def zeroDigest : Bytes → { bs : Bytes // bs.length = 16 } := fun _ =>
  zeroUuid

theorem articleAndRedirect_fits {getData : Bytes → Blob} (h : (getData [1]).val ≠ []) :
    Fits (articleAndRedirect getData) where
  count := (List.length_filter_le _ _).trans_lt (by simp [articleAndRedirect])
  sizes a ha := by
    have hmem := keptArticles_subset ha
    simp only [articleAndRedirect, List.mem_cons, List.not_mem_nil, or_false] at hmem
    rcases hmem with rfl | rfl
    · decide
    · decide
  data := .inl ⟨_, List.mem_cons_self, rfl, h⟩

end Create
end ZimCreator
end Zim.Writer
