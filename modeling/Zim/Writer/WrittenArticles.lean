import Zim.Writer.RoundTrip
import Zim.Writer.WrittenSearch

/-! The archive that `create` has written, as the list of its entries with their articles: what
programs rely on that go through a written archive by its numbers or by its titles. -/
namespace Zim.Writer
open Cxx Stateful FileImpl
namespace ZimCreator

/-- The entry `d` of an archive has what the source says of the article `a`. -/
structure ReadAs (build : Build) (archive : Archive) (getData : Bytes → Blob)
    (a : ArticleSource.Article) (d : Zim.Dirent) : Prop where
  ns : d.getNamespace = a.ns
  url : d.getUrl = a.url
  title : d.getTitle = if a.title = [] then a.url else a.title
  parameter : d.getParameter = a.parameter
  redirect : d.isRedirect = a.redirect
  mimeType : a.redirect = false → archive.mimeTypes[d.getMimeType.toNat]? = some a.mimeType
  blob : a.redirect = false → ∃ c, archive.cluster build d.getClusterNumber = .ok c ∧
    c.getBlob d.getBlobNumber = some (getData a.aid).val

/-- The entries of an archive are those of the articles `as`, which the source has in some order
among others that are not kept. -/
structure Stores (build : Build) (archive : Archive) (src : ArticleSource)
    (as : List ArticleSource.Article) (es : List Zim.Dirent) (ts : List UInt32) : Prop where
  perm : as.Perm (keptArticles src)
  indexed : archive.Indexed build es ts
  distinct : File.Distinct es
  titles : SortedBy Zim.Dirent.getTitle (byTitle es ts)
  entries : List.Forall₂ (ReadAs build archive src.getData) as es

section Create
variable {std : StdSort} {build : Build} {minChunkSize : UInt32} {compression : CompressionType}
  {src : ArticleSource} {content : Bytes} {md5 : Bytes → { bs : Bytes // bs.length = 16 }}

/-- An entry as it is stored is read as its article. -/
theorem readAs_of_made {archive : Archive} {a : ArticleSource.Article} {d : Dirent}
    (hm : Made archive.mimeTypes a d)
    (hblob : d.redirect = false → ∃ c, archive.cluster build d.clusterNumber = .ok c ∧
      c.getBlob d.blobNumber = some (src.getData d.aid).val) :
    ReadAs build archive src.getData a d.stored where
  ns := hm.ns
  url := hm.url
  title := Made.stored_title hm
  parameter := hm.parameter
  redirect := hm.redirect
  mimeType ha := (hm.article ha).2.2
  blob ha := by
    have hr : d.redirect = false := hm.redirect.trans ha
    obtain ⟨c, hc, hb⟩ := hblob hr
    refine ⟨c, ?_, ?_⟩
    · rw [← hc]
      simp [Zim.Dirent.stored, Zim.Dirent.getClusterNumber, Zim.Dirent.isRedirect, hr]
    · rw [← hm.aid, ← hb]
      simp [Zim.Dirent.stored, Zim.Dirent.getBlobNumber, Zim.Dirent.isRedirect, hr]

/-- The archive of a source with plain articles is opened and stores them. -/
theorem create_stores (hurls : src.DistinctUrls)
    (hplain : ∀ a ∈ src.articles, Plain a)
    (hdata : ∃ a ∈ src.articles, a.redirect = false ∧ (src.getData a.aid).val ≠ [])
    (hrange : InRange std minChunkSize compression src) (hlossless : build.Lossless compression)
    (h : create std build md5 minChunkSize compression src = .ok content)
    (direntCache clusterCache : ℕ) :
    ∃ f as es ts, FileImpl.new build content direntCache clusterCache = .ok f ∧
      Stores build ⟨content, f.header, f.mimeTypes⟩ src as es ts ∧
      Looking build ⟨content, f.header, f.mimeTypes⟩ es f := by
  obtain ⟨zc, tmpfile, hprepare, hfilled, hsized, hwritten, hread⟩ := create_ok h
  obtain ⟨zc', tmpfile', hprepare', -, hindexed⟩ := create_indexed h hrange.count hrange.sizes
  rw [hprepare] at hprepare'
  cases hprepare'
  have hfits := (prepare_fits hprepare).mpr ⟨hrange.count, hrange.sizes, .inl hdata⟩
  obtain ⟨zc₁, hdirents, groups, chunks, hpacked, hgroups⟩ := prepare_packed hprepare hfits.count
  have hexact := hfits.exact hsized hpacked
  have hlines : ∀ m ∈ zc.mimeTypes, m ≠ [] ∧ 0 ∉ m := by
    intro m hm
    obtain ⟨a, ha, hr, rfl⟩ := prepare_mimeTypes hprepare m hm
    exact (hplain a ha).mimeType hr
  obtain ⟨f, hnew, hheader, hmime⟩ := hexact.opens hfilled hsized hfits hpacked hwritten hlines
    (drop_header hwritten) direntCache clusterCache
  obtain ⟨as, hperm, hmade⟩ := prepare_made hprepare
  have hplain' : ∀ a ∈ as, Plain a := fun a ha =>
    hplain a (keptArticles_subset (hperm.mem_iff.mp ha))
  have hlooking := @File.new_looking build content direntCache clusterCache f
    (zc.readBack build) hnew
  refine ⟨f, as, zc.readBack build, zc.titleIdx, hnew, ?_, hlooking⟩
  rw [hheader, hmime]
  have hblob : ∀ d ∈ zc.dirents, d.redirect = false → ∃ c,
      (Archive.mk content zc.header zc.mimeTypes).cluster build d.clusterNumber = .ok c ∧
        c.getBlob d.blobNumber = some (src.getData d.aid).val := by
    intro d hd hr
    have hsmall : Small src.getData groups := by
      rw [hgroups (hrange.clusters zc₁ hdirents)]
      exact hrange.clusters zc₁ hdirents
    have hcount : groups.length < 2 ^ 32 :=
      hpacked.groups_length_le.trans_lt ((List.length_filter_le _ _).trans_lt hfits.count)
    obtain ⟨group, hgroup, hsize, hblob⟩ := hpacked.blob hsmall hcount hd hr
    exact ⟨_, hexact.cluster hfilled hsized hfits hpacked hwritten hgroup hsize
      (createDirents_keptBy hlossless hdirents group) zc.mimeTypes, hblob⟩
  refine ⟨hperm, hindexed zc.mimeTypes, readBack_distinct build hmade hplain'
    (urlKey_nodup hurls hperm hmade) (prepare_urls hprepare), ?_, ?_⟩
  · have hstrings : ∀ d ∈ zc.dirents, 0 ∉ d.url ∧ 0 ∉ d.title := by
      refine (made_forall_iff hperm hmade fun a d hm => by rw [hm.url, hm.title]).mpr ?_
      intro a ha
      exact ⟨(hplain a (keptArticles_subset ha)).url, (hplain a (keptArticles_subset ha)).title⟩
    exact readBack_titles (prepare_mark hprepare) hstrings (prepare_titles hprepare)
  · have hlen : as.length = (zc.readBack build).length := by
      rw [readBack, List.length_map]
      exact hmade.length_eq
    refine List.forall₂_iff_get.mpr ⟨hlen, fun i hi hi' => ?_⟩
    have hd := List.getElem?_eq_getElem (hmade.length_eq ▸ hi)
    have hm := hmade.get hi (hmade.length_eq ▸ hi)
    obtain ⟨-, -, -, hstored⟩ := getElem?_stored build hmade hplain' hd
    obtain ⟨_, hget⟩ := List.getElem?_eq_some_iff.mp hstored
    simp only [List.get_eq_getElem] at hm ⊢
    rw [hget]
    exact readAs_of_made hm (hblob _ (List.mem_of_getElem? hd))

end Create

namespace Stores
variable {build : Build} {archive : Archive} {src : ArticleSource}
  {as : List ArticleSource.Article} {es : List Zim.Dirent} {ts : List UInt32}

theorem length_eq (h : Stores build archive src as es ts) : as.length = es.length :=
  h.entries.length_eq

/-- The entry with the number of an article. -/
theorem entry (h : Stores build archive src as es ts) {i : UInt32} {a : ArticleSource.Article}
    (ha : as[i.toNat]? = some a) : ∃ d, es[i.toNat]? = some d ∧
      archive.dirent build i = .ok d ∧ ReadAs build archive src.getData a d := by
  obtain ⟨hi, rfl⟩ := List.getElem?_eq_some_iff.mp ha
  have hi' : i.toNat < es.length := h.length_eq ▸ hi
  have hd := List.getElem?_eq_getElem hi'
  exact ⟨es[i.toNat], hd, h.indexed.dirent _ _ hd, h.entries.get hi hi'⟩

theorem getData (h : Stores build archive src as es ts) {i : UInt32} {a : ArticleSource.Article}
    (ha : as[i.toNat]? = some a) (hr : a.redirect = false) :
    Runs (Looking build archive es) ((Zim.Article.mk i).getData build)
      (.ok (some (src.getData a.aid).val)) (Looking build archive es) := by
  obtain ⟨d, -, hd, has⟩ := h.entry ha
  obtain ⟨c, hc, hb⟩ := has.blob hr
  exact Article.getData_runs hd (has.redirect.trans hr) hc hb

end Stores
end ZimCreator
end Zim.Writer
