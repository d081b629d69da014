import Zim.Reader.Article
import Zim.Writer.ClusterPlaces
import Zim.Writer.Written

/-! What is read of an article from the archive that `create` has written. -/
namespace Zim.Writer
open Cxx Stateful
namespace ZimCreator
variable {std : StdSort} {build : Build} {minChunkSize : UInt32} {compression : CompressionType}
  {src : ArticleSource} {zc zc₁ : ZimCreator} {tmpfile content digest : Bytes}
  {mimeTypes : List Bytes} {a : ArticleSource.Article} {d : Dirent}

/-- An article whose strings can be told from their bytes. -/
structure Plain (a : ArticleSource.Article) : Prop where
  url : 0 ∉ a.url
  title : 0 ∉ a.title
  mimeType : a.redirect = false → a.mimeType ≠ [] ∧ 0 ∉ a.mimeType
  parameter : a.parameter.length ≤ 255

/-- The counts, the sizes of the entries and those of the clusters have 32 bits. -/
structure InRange (std : StdSort) (minChunkSize : UInt32) (compression : CompressionType)
    (src : ArticleSource) : Prop where
  count : (keptArticles src).length < 2 ^ 32
  sizes : ∀ a ∈ keptArticles src, a.size < 2 ^ 32
  clusters : ∀ zc, (new minChunkSize compression).createDirents std src = .ok zc →
    Small src.getData (groupsOf src.getData zc)

/-- From every state with `P` the calls of the reader answer what the source has said of the
article `a`, and lead to such a state again. -/
structure Reads (build : Build) (P : FileImpl → Prop) (src : ArticleSource)
    (a : ArticleSource.Article) (article : Zim.Article) : Prop where
  found : Runs P (File.getArticle build a.ns a.url) (.ok article) P
  good : article.good = true
  title : Runs P (article.getTitle build) (.ok (if a.title = [] then a.url else a.title)) P
  parameter : Runs P (article.getParameter build) (.ok a.parameter) P
  isRedirect : Runs P (article.isRedirect build) (.ok a.redirect) P
  mimeType : a.redirect = false → Runs P (article.getMimeType build) (.ok (some a.mimeType)) P
  data : a.redirect = false →
    Runs P (article.getData build) (.ok (some (src.getData a.aid).val)) P
  target : a.redirect = true → ∃ b ∈ keptArticles src, b.aid = a.redirectAid ∧
    ∃ target : Zim.Article, Runs P (article.getRedirectArticle build) (.ok target) P ∧
      Runs P (target.getNamespace build) (.ok b.ns) P ∧
      Runs P (target.getUrl build) (.ok b.url) P

section Entries

theorem Plain.writable (h : Plain a) (hm : Made mimeTypes a d) : d.Writable where
  mark := hm.mark
  url := hm.url ▸ h.url
  title := hm.title ▸ h.title
  parameter := by
    rw [hm.parameter]
    exact Nat.lt_succ_of_le h.parameter

theorem Made.stored_title (hm : Made mimeTypes a d) :
    d.stored.getTitle = if a.title = [] then a.url else a.title := by
  rw [Zim.Dirent.stored_getTitle, Zim.Dirent.getTitle, hm.title, hm.url]

variable (build) in
/-- The entries of articles with plain strings are read as they were written. -/
theorem getElem?_stored {as : List ArticleSource.Article}
    (hmade : List.Forall₂ (Made mimeTypes) as zc.dirents) (hplain : ∀ a ∈ as, Plain a) {i : ℕ}
    (hd : zc.dirents[i]? = some d) : ∃ a ∈ as, Made mimeTypes a d ∧
      (zc.readBack build)[i]? = some d.stored := by
  obtain ⟨hi, rfl⟩ := List.getElem?_eq_some_iff.mp hd
  have hi' : i < as.length := hmade.length_eq.symm ▸ hi
  have hm := hmade.get hi' hi
  have hmem : as[i] ∈ as := List.getElem_mem hi'
  refine ⟨as[i], hmem, hm, ?_⟩
  rw [readBack, List.getElem?_map, hd, Option.map_some]
  exact congrArg some (Zim.Dirent.readBack_of_writable build.host ((hplain _ hmem).writable hm))

variable (build) in
theorem readBack_distinct {as : List ArticleSource.Article}
    (hmade : List.Forall₂ (Made mimeTypes) as zc.dirents) (hplain : ∀ a ∈ as, Plain a)
    (hnodup : (zc.dirents.map urlKey).Nodup)
    (hurls : zc.dirents.Pairwise fun d e => urlKey d ≤ urlKey e) :
    File.Distinct (zc.readBack build) := by
  have hstored (d : Dirent) (hd : d ∈ zc.dirents) :
      d.toDirent.readBack build.host = d.stored := by
    obtain ⟨i, hi⟩ := List.getElem?_of_mem hd
    obtain ⟨a, ha, hm, -⟩ := getElem?_stored build hmade hplain hi
    exact Zim.Dirent.readBack_of_writable build.host ((hplain a ha).writable hm)
  unfold File.Distinct readBack
  rw [List.pairwise_map]
  refine (pairwise_lt hurls hnodup).imp_of_mem fun {d e} hd he hlt => ?_
  rw [hstored d hd, hstored e he]
  exact hlt

end Entries

section Clusters
variable {md5 : Bytes → { bs : Bytes // bs.length = 16 }} {getData : Bytes → Blob}
  {groups : List (List Dirent)} {chunks : List Bytes}

/-- A cluster of a written archive is found behind its pointer. -/
theorem Exact.cluster (hexact : Exact build zc tmpfile) (hfilled : zc.Filled)
    (hsized : Sized build zc tmpfile) (hfits : CreatorFits zc)
    (hpacked : Packed build getData zc₁ zc tmpfile groups chunks)
    (hwritten : content =
      (zc.parts build tmpfile).body ++ (md5 (zc.parts build tmpfile).body).val)
    {k : UInt32} {group : List Dirent} (hk : groups[k.toNat]? = some group)
    (hsmall : groupSize getData group < 2 ^ 32)
    (hkept : (groupCluster getData zc₁.compression group).KeptBy build)
    (mimeTypes : List Bytes) :
    (Archive.mk content zc.header mimeTypes).cluster build k =
      .ok ⟨some (groupCluster getData zc₁.compression group)⟩ := by
  obtain ⟨hlt, -⟩ := List.getElem?_eq_some_iff.mp hk
  obtain ⟨off, hoff, hle, hget⟩ := hpacked.get_cluster hk hsmall hkept
  obtain ⟨-, -, -, -, hptrs, hend⟩ := hsized.starts
  rw [hexact.data] at hend
  have hgroups : zc.clusterOffsets.length = groups.length := by
    rw [hpacked.offsets, List.length_map, Chunks.starts_length, hpacked.serialized.length_eq]
  have hclusters := hpacked.groups_length_le
  have harticles : (articles zc.dirents).length ≤ zc.dirents.length := List.length_filter_le _ _
  have hcount := hfits.count
  have hbody := (zc.parts build tmpfile).body_length
  rw [hexact.data] at hbody
  have hlen : content.length = (zc.parts build tmpfile).body.length + 16 := by
    rw [hwritten, List.length_append, (md5 (zc.parts build tmpfile).body).property]
  simp only [maxOffset] at hend
  have hpointer := hexact.pointer_cluster hsized hfits.sizes hoff hle
    (md5 (zc.parts build tmpfile).body).val
  rw [← hwritten, ← hfilled.clusterPtrPos] at hpointer
  have hpos : (UInt64.ofNat (pointer content zc.header.clusterPtrPos k.toNat)).toNat =
      (zc.parts build tmpfile).clusterDataStart + off.toNat := by
    rw [hpointer]
    exact UInt64.toNat_ofNat_of_lt' (by simp only [UInt64.size]; omega)
  have hptrPos : zc.header.clusterPtrPos.toNat = (zc.parts build tmpfile).clusterPtrStart := by
    rw [hfilled.clusterPtrPos, hexact.clusterPtr]
  have hidx : k < zc.header.clusterCount := by
    rw [UInt32.lt_iff_toNat_lt, hfilled.clusterCount,
      UInt32.toNat_ofNat_of_lt' (by simp only [UInt32.size]; omega), hgroups]
    exact hlt
  have hdrop : content.drop ((zc.parts build tmpfile).clusterDataStart + off.toNat) =
      tmpfile.drop off.toNat ++ (md5 (zc.parts build tmpfile).body).val := by
    rw [hwritten, List.drop_append_of_le_length (by omega), Parts.drop_clusterData, hexact.data]
  refine Archive.cluster_ok hidx (Archive.offset_ok ?_ ?_) ?_ ?_
  · simp only
    omega
  · simp only
    omega
  · simp only [hpos]
    omega
  · simp only [hpos, hdrop]
    exact hget _

/-- The data of an article is in the cluster, and under the number, that its entry names. -/
theorem Packed.blob (hpacked : Packed build getData zc₁ zc tmpfile groups chunks)
    (hsmall : Small getData groups) (hcount : groups.length < 2 ^ 32)
    (hd : d ∈ zc.dirents) (hr : d.redirect = false) :
    ∃ group, groups[d.clusterNumber.toNat]? = some group ∧
      groupSize getData group < 2 ^ 32 ∧
      (groupCluster getData zc₁.compression group).getBlob d.blobNumber =
        some (getData d.aid).val := by
  have hmem : d ∈ placed groups := by
    rw [← hpacked.places]
    exact List.mem_filter.mpr ⟨hd, by simp [Zim.Dirent.isRedirect, hr]⟩
  obtain ⟨k, group, b, e, hk, hb, rfl⟩ := mem_placed.mp hmem
  have hsize := hsmall group (List.mem_of_getElem? hk)
  obtain ⟨hlt, -⟩ := List.getElem?_eq_some_iff.mp hk
  have hk' : (UInt32.ofNat k).toNat = k :=
    UInt32.toNat_ofNat_of_lt' (by simp only [UInt32.size]; omega)
  have hblob : (blobs getData group)[b]? = some (getData e.aid) := by simp [blobs, hb]
  refine ⟨group, ?_, hsize, ClusterImpl.getBlob_ofBlobs _ _ hsize hblob⟩
  rwa [place_clusterNumber, hk']

/-- The clusters that the creator of an archive writes are compressed as it was asked to, and a
compressor that loses nothing keeps them. -/
theorem createDirents_keptBy {std : StdSort} {minChunkSize : UInt32}
    {compression : CompressionType} {src : ArticleSource}
    (hlossless : build.Lossless compression)
    (hdirents : (new minChunkSize compression).createDirents std src = .ok zc₁)
    (group : List Dirent) :
    (groupCluster getData (zc₁.createTitleIndex std).compression group).KeptBy build := by
  obtain ⟨-, -, -, hzc₁, -⟩ := createDirents_stages hdirents ⟨rfl, rfl⟩
  refine groupCluster_keptBy ?_ group
  rw [hzc₁]
  exact hlossless

end Clusters

section Prepared

theorem prepare_mimeTypes
    (h : prepare std build minChunkSize compression src = .ok (zc, tmpfile)) :
    ∀ m ∈ zc.mimeTypes, ∃ a ∈ src.articles, a.redirect = false ∧ m = a.mimeType := by
  obtain ⟨zc₁, zc₂, hdirents, hclusters, rfl⟩ := prepare_ok h
  obtain ⟨-, -, -, -, hmime⟩ := createDirents_stages hdirents ⟨rfl, rfl⟩
  obtain ⟨-, -, -, hkept⟩ := createClusters_entries hclusters
  rw [show (zc₂.fillHeader src).mimeTypes = zc₁.mimeTypes from hkept]
  exact hmime

theorem prepare_target (haids : src.DistinctAids) (hurls : src.DistinctUrls)
    (h : prepare std build minChunkSize compression src = .ok (zc, tmpfile)) :
    ∀ d ∈ zc.dirents, d.redirect = true → ∃ (j : ℕ) (e : Dirent), zc.dirents[j]? = some e ∧
      e.aid = d.redirectAid ∧ d.redirectIndex.toNat = j % 2 ^ 32 := by
  obtain ⟨zc₁, hdirents, hentries, -⟩ := prepare_renumbered h
  have hcreated := createDirents_new haids hurls hdirents
  intro d hd hr
  obtain ⟨i, hi, rfl⟩ := List.getElem_of_mem hd
  have hi' : i < zc₁.dirents.length := hentries.length_eq ▸ hi
  -- the entry of a redirect has kept its numbers
  have hsame : zc.dirents[i] = zc₁.dirents[i] := by
    rcases hentries.get hi' hi with heq | ⟨hnot, k, b, heq⟩
    · exact heq
    · simp only [List.get_eq_getElem] at hnot heq
      have hredirect : zc.dirents[i].redirect = zc₁.dirents[i].redirect := by
        rw [heq]
        rfl
      rw [hredirect] at hr
      rw [Zim.Dirent.isRedirect, hr] at hnot
      cases hnot
  rw [hsame] at hr ⊢
  obtain ⟨j, e, he, haid, hindex⟩ := hcreated.target _ (List.getElem_mem hi') hr
  obtain ⟨hj, rfl⟩ := List.getElem?_eq_some_iff.mp he
  have hj' : j < zc.dirents.length := hentries.length_eq ▸ hj
  have hposition := (hentries.get hj hj').position_eq
  simp only [List.get_eq_getElem] at hposition
  refine ⟨j, zc.dirents[j], List.getElem?_eq_getElem hj', ?_, hindex⟩
  exact (congrArg (fun p => p.2.1) hposition).symm.trans haid

end Prepared

section Reads
variable {archive : Archive} {ts : List UInt32} {as : List ArticleSource.Article}

section Stored
variable {es : List Zim.Dirent} {i : UInt32} (hd : archive.dirent build i = .ok d.stored)
include hd

theorem getData_stored (hr : d.redirect = false) {c : Cluster} {bs : Bytes}
    (hc : archive.cluster build d.clusterNumber = .ok c)
    (hb : c.getBlob d.blobNumber = some bs) :
    Runs (FileImpl.Looking build archive es) ((Zim.Article.mk i).getData build) (.ok (some bs))
      (FileImpl.Looking build archive es) := by
  have hcluster : d.stored.getClusterNumber = d.clusterNumber := by
    simp [Zim.Dirent.stored, Zim.Dirent.getClusterNumber, Zim.Dirent.isRedirect, hr]
  have hnumber : d.stored.getBlobNumber = d.blobNumber := by
    simp [Zim.Dirent.stored, Zim.Dirent.getBlobNumber, Zim.Dirent.isRedirect, hr]
  exact Article.getData_runs hd hr (hcluster.symm ▸ hc) (hnumber.symm ▸ hb)

theorem getRedirectArticle_stored (hr : d.redirect = true) :
    Runs (FileImpl.Looking build archive es) ((Zim.Article.mk i).getRedirectArticle build)
      (.ok ⟨d.redirectIndex⟩) (FileImpl.Looking build archive es) := by
  have hnumber : d.stored.getRedirectIndex = d.redirectIndex := by
    simp [Zim.Dirent.stored, Zim.Dirent.getRedirectIndex, Zim.Dirent.isRedirect, hr]
  rw [← hnumber]
  exact Article.getRedirectArticle_runs hd

end Stored

/-- An archive with plain entries, whose redirects and clusters are in place, is read. -/
theorem reads_of (hindexed : archive.Indexed build (zc.readBack build) ts)
    (hdistinct : File.Distinct (zc.readBack build))
    (hmade : List.Forall₂ (Made archive.mimeTypes) as zc.dirents)
    (hperm : as.Perm (keptArticles src)) (hplain : ∀ a ∈ as, Plain a)
    (htarget : ∀ d ∈ zc.dirents, d.redirect = true → ∃ (j : ℕ) (e : Dirent),
      zc.dirents[j]? = some e ∧ e.aid = d.redirectAid ∧ d.redirectIndex.toNat = j % 2 ^ 32)
    (hblob : ∀ d ∈ zc.dirents, d.redirect = false → ∃ c,
      archive.cluster build d.clusterNumber = .ok c ∧
      c.getBlob d.blobNumber = some (src.getData d.aid).val)
    (ha : a ∈ keptArticles src) :
    ∃ article, Reads build (FileImpl.Looking build archive (zc.readBack build)) src a article := by
  have hcount : zc.dirents.length < 2 ^ 32 := by
    have hlen := FileImpl.length_lt hindexed
    rwa [readBack, List.length_map] at hlen
  obtain ⟨i, hi, rfl⟩ := List.getElem_of_mem (hperm.mem_iff.mpr ha)
  have hi' : i < zc.dirents.length := hmade.length_eq ▸ hi
  have hm : Made archive.mimeTypes as[i] zc.dirents[i] := hmade.get hi hi'
  have hwritable := (hplain _ (List.getElem_mem hi)).writable hm
  have hmem : zc.dirents[i] ∈ zc.dirents := List.getElem_mem hi'
  obtain ⟨-, -, -, he⟩ := getElem?_stored build hmade hplain
    (List.getElem?_eq_getElem hi')
  generalize as[i] = a at hm ha
  generalize zc.dirents[i] = d at hm hwritable hmem he
  have hindex : (UInt32.ofNat i).toNat = i := UInt32.toNat_ofNat_of_lt' (hi'.trans hcount)
  rw [← hindex] at he
  have hd := hindexed.dirent _ _ he
  refine ⟨⟨UInt32.ofNat i⟩, ?_, ?_, ?_, ?_, ?_, fun hr => ?_, fun hr => ?_, fun hr => ?_⟩
  · have hfound := File.getArticle_runs hindexed hdistinct he
    have hns : d.stored.getNamespace = a.ns := hm.ns
    have hurl : d.stored.getUrl = a.url := hm.url
    rwa [hns, hurl] at hfound
  · have hne : UInt32.ofNat i ≠ 0xffffffff := by
      intro heq
      have hval := congrArg UInt32.toNat heq
      simp only [hindex, UInt32.reduceToNat] at hval
      omega
    simp [Article.good, hne]
  · rw [← Made.stored_title hm]
    exact Article.get_runs Zim.Dirent.getTitle hd
  · have hparameter : d.stored.getParameter = a.parameter := hm.parameter
    rw [← hparameter]
    exact Article.get_runs Zim.Dirent.getParameter hd
  · have hredirect : d.stored.isRedirect = a.redirect := hm.redirect
    rw [← hredirect]
    exact Article.get_runs Zim.Dirent.isRedirect hd
  · exact Article.getMimeType_runs hd (hm.article hr).2.2
  · have hdr : d.redirect = false := hm.redirect.trans hr
    obtain ⟨c, hc, hb⟩ := hblob d hmem hdr
    rw [← hm.aid]
    exact getData_stored hd hdr hc hb
  · have hdr : d.redirect = true := hm.redirect.trans hr
    obtain ⟨j, e, hj, haid, hredirect⟩ := htarget d hmem hdr
    obtain ⟨b, hb, hmb, he'⟩ := getElem?_stored build hmade hplain hj
    obtain ⟨hlt, -⟩ := List.getElem?_eq_some_iff.mp hj
    rw [Nat.mod_eq_of_lt (hlt.trans hcount)] at hredirect
    rw [← hredirect] at he'
    have hde := hindexed.dirent _ _ he'
    refine ⟨b, hperm.mem_iff.mp hb, ?_, ⟨d.redirectIndex⟩, ?_, ?_, ?_⟩
    · rw [← hmb.aid, haid, (hm.target hr).1]
    · exact getRedirectArticle_stored hd hdr
    · have hns : e.stored.getNamespace = b.ns := hmb.ns
      rw [← hns]
      exact Article.get_runs Zim.Dirent.getNamespace hde
    · have hurl : e.stored.getUrl = b.url := hmb.url
      rw [← hurl]
      exact Article.get_runs Zim.Dirent.getUrl hde

end Reads

section Create
variable {md5 : Bytes → { bs : Bytes // bs.length = 16 }}

/-- The archive of a source with plain articles is opened, and every article that was kept is read
from it, however often and in whatever order. -/
theorem create_reads (haids : src.DistinctAids) (hurls : src.DistinctUrls)
    (hplain : ∀ a ∈ src.articles, Plain a)
    (hdata : ∃ a ∈ src.articles, a.redirect = false ∧ (src.getData a.aid).val ≠ [])
    (hrange : InRange std minChunkSize compression src) (hlossless : build.Lossless compression)
    (h : create std build md5 minChunkSize compression src = .ok content)
    (direntCache clusterCache : ℕ) :
    ∃ f, FileImpl.new build content direntCache clusterCache = .ok f ∧
      ∃ P : FileImpl → Prop, P f ∧
        ∀ a ∈ keptArticles src, ∃ article, Reads build P src a article := by
  obtain ⟨zc, tmpfile, hprepare, hfilled, hsized, hwritten, hread⟩ := create_ok h
  obtain ⟨zc', tmpfile', hprepare', -, hindexed⟩ := create_indexed h hrange.count hrange.sizes
  rw [hprepare] at hprepare'
  cases hprepare'
  have hfits := (prepare_fits hprepare).mpr ⟨hrange.count, hrange.sizes, .inl hdata⟩
  obtain ⟨zc₁, hdirents, groups, chunks, hpacked, hgroups⟩ := prepare_packed hprepare hfits.count
  have hexact := hfits.exact hsized hpacked
  have hlines : ∀ m ∈ zc.mimeTypes, m ≠ [] ∧ 0 ∉ m := by
    intro m hm
    obtain ⟨a, ha, hr, rfl⟩ := prepare_mimeTypes hprepare m hm
    exact (hplain a ha).mimeType hr
  obtain ⟨f, hnew, hheader, hmime⟩ := hexact.opens hfilled hsized hfits hpacked hwritten hlines
    (drop_header hwritten) direntCache clusterCache
  obtain ⟨as, hperm, hmade⟩ := prepare_made hprepare
  have hplain' : ∀ a ∈ as, Plain a := fun a ha =>
    hplain a (keptArticles_subset (hperm.mem_iff.mp ha))
  have hdistinct := readBack_distinct build hmade hplain'
    (urlKey_nodup hurls hperm hmade) (prepare_urls hprepare)
  have hlooking := @File.new_looking build content direntCache clusterCache f
    (zc.readBack build) hnew
  rw [hheader, hmime] at hlooking
  refine ⟨f, hnew, _, hlooking, fun a ha => ?_⟩
  apply reads_of (hindexed zc.mimeTypes) hdistinct hmade hperm hplain'
    (prepare_target haids hurls hprepare) ?_ ha
  intro d hd hr
  have hsmall : Small src.getData groups := by
    rw [hgroups (hrange.clusters zc₁ hdirents)]
    exact hrange.clusters zc₁ hdirents
  have hcount : groups.length < 2 ^ 32 :=
    hpacked.groups_length_le.trans_lt ((List.length_filter_le _ _).trans_lt hfits.count)
  obtain ⟨group, hgroup, hsize, hblob⟩ := hpacked.blob hsmall hcount hd hr
  exact ⟨_, hexact.cluster hfilled hsized hfits hpacked hwritten hgroup hsize
    (createDirents_keptBy hlossless hdirents group) zc.mimeTypes, hblob⟩

theorem articleAndRedirect_plain (getData : Bytes → Blob) :
    ∀ a ∈ (articleAndRedirect getData).articles, Plain a := by
  intro a ha
  simp only [articleAndRedirect, List.mem_cons, List.not_mem_nil, or_false] at ha
  rcases ha with rfl | rfl
  · exact ⟨by decide, by decide, fun _ => by decide, by decide⟩
  · exact ⟨by decide, by decide, fun h => absurd h (by decide), by decide⟩

theorem articleAndRedirect_inRange : InRange .insertion 1 .zimcompBzip2
    (articleAndRedirect fun aid => ⟨aid.take 9, by simp⟩) := by
  have hfits : Fits (articleAndRedirect fun aid => ⟨aid.take 9, by simp⟩) :=
    articleAndRedirect_fits (by decide)
  refine ⟨hfits.count, hfits.sizes, fun zc hzc => ?_⟩
  have hcheck : (match (new 1 .zimcompBzip2).createDirents .insertion
      (articleAndRedirect fun aid => ⟨aid.take 9, by simp⟩) with
    | .ok zc => (groupsOf (fun aid => ⟨aid.take 9, by simp⟩) zc).all fun group =>
        groupSize (fun aid => ⟨aid.take 9, by simp⟩) group < 2 ^ 32
    | .error _ => false) = true := by decide +kernel
  rw [hzc] at hcheck
  intro group hgroup
  exact of_decide_eq_true (List.all_eq_true.mp hcheck group hgroup)

theorem create_reads_articleAndRedirect :
    ∃ content, create .insertion .marked zeroDigest 1 .zimcompBzip2
        (articleAndRedirect fun aid => ⟨aid.take 9, by simp⟩) = .ok content ∧
      ∃ f, FileImpl.new .marked content 2 2 = .ok f ∧ ∃ P : FileImpl → Prop, P f ∧
        ∀ a ∈ keptArticles (articleAndRedirect fun aid => ⟨aid.take 9, by simp⟩),
          ∃ article, Reads .marked P (articleAndRedirect fun aid => ⟨aid.take 9, by simp⟩) a
            article := by
  obtain ⟨content, hcreate⟩ := Fallible.exists_ok (x := create .insertion .marked zeroDigest 1
    .zimcompBzip2 (articleAndRedirect fun aid => ⟨aid.take 9, by simp⟩)) (by decide +kernel)
  refine ⟨content, hcreate, create_reads ?_ ?_ (articleAndRedirect_plain _) ?_
    articleAndRedirect_inRange (Build.marked_lossless _) hcreate 2 2⟩
  · unfold ArticleSource.DistinctAids
    decide
  · unfold ArticleSource.DistinctUrls
    decide
  · exact ⟨_, List.mem_cons_self, rfl, by decide⟩

end Create

end ZimCreator
end Zim.Writer
