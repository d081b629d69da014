import Zim.Writer.LayoutLaw

/-! The entries and the title index of a written archive as they are read back. -/
namespace Zim.Writer
open Cxx Stateful
namespace ZimCreator
variable {std : StdSort} {build : Build} {minChunkSize : UInt32} {compression : CompressionType}
  {src : ArticleSource} {zc : ZimCreator} {tmpfile content digest : Bytes}

/-- The entries as they are read from the archive. -/
def readBack (build : Build) (zc : ZimCreator) : List Zim.Dirent :=
  zc.dirents.map fun d => d.toDirent.readBack build.host

section Index
variable (hleads : Leads build zc tmpfile) (hfilled : zc.Filled)
  (hsized : Sized build zc tmpfile) (hcount : zc.dirents.length < 2 ^ 32)
  (hwritten : content = (zc.parts build tmpfile).body ++ digest)
  (hlen : content.length < 2 ^ 64)
include hfilled hcount

theorem articleCount_toNat : zc.header.articleCount.toNat = zc.dirents.length := by
  rw [hfilled.articleCount]
  exact UInt32.toNat_ofNat_of_lt' hcount

theorem lt_articleCount {i : UInt32} (hi : i.toNat < zc.dirents.length) :
    i < zc.header.articleCount := by
  rwa [UInt32.lt_iff_toNat_lt, articleCount_toNat hfilled hcount]

include hleads hsized hwritten hlen

theorem Leads.dirent (hsizes : ∀ d ∈ zc.dirents, d.size < 2 ^ 32) {i : UInt32} {d : Dirent}
    (hd : zc.dirents[i.toNat]? = some d) (hmark : d.redirect = true ↔ d.mimeType = 0xffff)
    (mimeTypes : List Bytes) :
    (Archive.mk content zc.header mimeTypes).dirent build i =
      .ok (d.toDirent.readBack build.host) := by
  obtain ⟨hi, -⟩ := List.getElem?_eq_some_iff.mp hd
  obtain ⟨-, htitle, hentries, hptrs, hdata, hend⟩ := hsized.starts
  have hbody := (zc.parts build tmpfile).body_length
  have hcontent : (zc.parts build tmpfile).body.length ≤ content.length := by
    rw [hwritten, List.length_append]
    exact Nat.le_add_right _ _
  have hpointer := hleads.pointer_entry hsized hsizes hi digest
  rw [← hwritten, ← hfilled.urlPtrPos] at hpointer
  have hstart := Chunks.start_le (zc.parts build tmpfile).entries i.toNat
  rw [entries_length] at hstart
  have hpos : (UInt64.ofNat (pointer content zc.header.urlPtrPos i.toNat)).toNat =
      (zc.parts build tmpfile).entriesStart +
        Chunks.start (zc.parts build tmpfile).entries i.toNat := by
    rw [hpointer]
    exact UInt64.toNat_ofNat_of_lt' (by simp only [UInt64.size]; omega)
  have hchunk : (zc.parts build tmpfile).entries[i.toNat]? =
      some (d.toDirent.write build.host) := by
    simp [parts, hd]
  obtain ⟨rest, hdrop⟩ := (zc.parts build tmpfile).drop_entry hchunk digest
  rw [← hwritten] at hdrop
  obtain ⟨-, -, hread⟩ := Zim.Dirent.read_write_readBack build.host hmark
  obtain ⟨rest', hread⟩ := hread rest
  refine Archive.dirent_ok (lt_articleCount hfilled hcount hi) (Archive.offset_ok ?_ hlen) ?_
    (s := ⟨rest', false⟩) ?_ rfl
  · have hurl : zc.header.urlPtrPos.toNat = (zc.parts build tmpfile).urlPtrStart := by
      rw [hfilled.urlPtrPos, hleads.urlPtr]
    simp only
    omega
  · simp only [hpos]
    omega
  · simp only [hpos, hdrop]
    exact hread

theorem Leads.index {i t : UInt32} (ht : zc.titleIdx[i.toNat]? = some t)
    (mimeTypes : List Bytes) :
    (Archive.mk content zc.header mimeTypes).indexByTitle build i = .ok t := by
  obtain ⟨hi, -⟩ := List.getElem?_eq_some_iff.mp ht
  rw [hsized.titleIdx] at hi
  obtain ⟨-, htitle, hentries, hptrs, hdata, hend⟩ := hsized.starts
  have hcontent : (zc.parts build tmpfile).body.length ≤ content.length := by
    rw [hwritten, List.length_append]
    exact Nat.le_add_right _ _
  have hbody := (zc.parts build tmpfile).body_length
  have hpos : zc.header.titleIdxPos.toNat = ((zc.parts build tmpfile).header ++
      (zc.parts build tmpfile).mimeList ++ (zc.parts build tmpfile).urlPtrs).length := by
    rw [hfilled.titleIdxPos, hleads.titleIdx]
    simp [Parts.titleIdxStart, Parts.urlPtrStart, Nat.add_assoc]
  have hparts : content = ((zc.parts build tmpfile).header ++
      (zc.parts build tmpfile).mimeList ++ (zc.parts build tmpfile).urlPtrs) ++
      (zc.titleIdx.flatMap (sizeTypeBytes build.host) ++
        ((zc.parts build tmpfile).entries.flatten ++ (zc.parts build tmpfile).clusterPtrs ++
          (zc.parts build tmpfile).clusterData ++ digest)) := by
    rw [hwritten]
    simp [Parts.body, parts]
  have hfield := field_flatMap (sizeTypeBytes_length build.host) ht
    ((zc.parts build tmpfile).header ++ (zc.parts build tmpfile).mimeList ++
      (zc.parts build tmpfile).urlPtrs)
    ((zc.parts build tmpfile).entries.flatten ++ (zc.parts build tmpfile).clusterPtrs ++
      (zc.parts build tmpfile).clusterData ++ digest)
  rw [← hparts, ← hpos] at hfield
  have hindex : zc.header.titleIdxPos.toNat = (zc.parts build tmpfile).titleIdxStart := by
    rw [hfilled.titleIdxPos, hleads.titleIdx]
  rw [Archive.indexByTitle_ok (lt_articleCount hfilled hcount hi) (by simp only; omega) hlen]
  simp only [hfield, decode_sizeTypeBytes]

end Index

section Order
variable {es es' : List Zim.Dirent}

/-- The order of the title index takes the entries by what they have in common. -/
theorem byTitle_map_congr {κ : Type} {f : Zim.Dirent → κ} (h : es.map f = es'.map f)
    (ts : List UInt32) : (byTitle es ts).map f = (byTitle es' ts).map f := by
  unfold byTitle
  rw [List.map_map, List.map_map]
  refine List.map_congr_left fun i _ => ?_
  have hget := congrArg (fun l => l.getD i.toNat (f .new)) h
  simpa only [Function.comp_apply, List.getD_map] using hget

/-- The order that `CompareTitle` makes. -/
def titleOrder (d : Zim.Dirent) : ℤ ×ₗ Bytes := charStringKey d.getNamespace d.getTitle

theorem sortedBy_getTitle_iff :
    SortedBy Zim.Dirent.getTitle es ↔ (es.map titleOrder).Pairwise (· ≤ ·) :=
  List.pairwise_map.symm

theorem sorted_byTitle_congr (h : es.map titleOrder = es'.map titleOrder) (ts : List UInt32) :
    SortedBy Zim.Dirent.getTitle (byTitle es ts) ↔
      SortedBy Zim.Dirent.getTitle (byTitle es' ts) := by
  rw [sortedBy_getTitle_iff, sortedBy_getTitle_iff, byTitle_map_congr h]

theorem Renumbered.position_eq {d d' : Dirent} (h : Renumbered d d') :
    position d = position d' := by
  rcases h with rfl | ⟨-, k, b, rfl⟩
  · rfl
  · rfl

theorem Renumbered.titleOrder_eq {d d' : Dirent} (h : Renumbered d d') :
    titleOrder d.toDirent = titleOrder d'.toDirent := by
  rcases h with rfl | ⟨-, k, b, rfl⟩
  · rfl
  · rfl

end Order

section Prepared

/-- The title index is the one of the entries behind `createDirents`. -/
theorem prepare_renumbered
    (h : prepare std build minChunkSize compression src = .ok (zc, tmpfile)) :
    ∃ zc₁, (new minChunkSize compression).createDirents std src = .ok zc₁ ∧
      List.Forall₂ Renumbered zc₁.dirents zc.dirents ∧
      zc.titleIdx = (zc₁.createTitleIndex std).titleIdx := by
  obtain ⟨zc₁, zc₂, hdirents, hclusters, rfl⟩ := prepare_ok h
  obtain ⟨hentries, -, htitle, -⟩ := createClusters_entries hclusters
  exact ⟨zc₁, hdirents, hentries, htitle⟩

theorem prepare_mark (h : prepare std build minChunkSize compression src = .ok (zc, tmpfile)) :
    ∀ d ∈ zc.dirents, d.redirect = true ↔ d.mimeType = 0xffff := by
  obtain ⟨as, hperm, hmade⟩ := prepare_made h
  exact (made_forall_iff hperm hmade fun a d hm => iff_of_true hm.mark trivial).mpr
    fun _ _ => trivial

theorem prepare_titleIdx_perm
    (h : prepare std build minChunkSize compression src = .ok (zc, tmpfile)) :
    zc.titleIdx.Perm ((List.range zc.dirents.length).map UInt32.ofNat) := by
  obtain ⟨zc₁, hdirents, hentries, htitle⟩ := prepare_renumbered h
  obtain ⟨collected, -, ⟨st⟩, -, -⟩ := createDirents_stages hdirents ⟨rfl, rfl⟩
  rw [htitle, ← hentries.length_eq]
  exact createTitleIndex_perm std st.idx_perm

theorem prepare_urls (h : prepare std build minChunkSize compression src = .ok (zc, tmpfile)) :
    zc.dirents.Pairwise fun d e => urlKey d ≤ urlKey e := by
  obtain ⟨zc₁, hdirents, hentries, -⟩ := prepare_renumbered h
  obtain ⟨collected, -, ⟨st⟩, -, -⟩ := createDirents_stages hdirents ⟨rfl, rfl⟩
  have hkeys : zc₁.dirents.map urlKey = zc.dirents.map urlKey :=
    forall₂_map_eq hentries fun d d' hd => congrArg Prod.fst hd.position_eq
  have hsorted : zc₁.dirents.Pairwise fun d e => urlKey d ≤ urlKey e := by
    rw [st.dirents_eq]
    exact StdSort.sort_sorted compareUrl_iff std
  rw [← List.pairwise_map] at hsorted ⊢
  rwa [← hkeys]

theorem prepare_titles (h : prepare std build minChunkSize compression src = .ok (zc, tmpfile)) :
    SortedBy Zim.Dirent.getTitle (byTitle zc.entries zc.titleIdx) := by
  obtain ⟨zc₁, -, hentries, htitle⟩ := prepare_renumbered h
  have hkeys : zc.entries.map titleOrder = zc₁.entries.map titleOrder := by
    unfold entries
    rw [List.map_map, List.map_map]
    exact (forall₂_map_eq hentries fun d d' hd => hd.titleOrder_eq).symm
  rw [htitle, sorted_byTitle_congr hkeys]
  exact createTitleIndex_sorted std zc₁

end Prepared

section ReadBack
variable (hmark : ∀ d ∈ zc.dirents, d.redirect = true ↔ d.mimeType = 0xffff)
include hmark

/-- Reading keeps the namespaces of the entries, and their urls up to the first zero. -/
theorem getElem?_readBack {i : ℕ} {e : Zim.Dirent} (he : (zc.readBack build)[i]? = some e) :
    ∃ d, zc.dirents[i]? = some d ∧ e = d.toDirent.readBack build.host ∧ e.ns = d.ns ∧
      e.url = d.url.takeWhile (· ≠ 0) := by
  rw [readBack, List.getElem?_map, Option.map_eq_some_iff] at he
  obtain ⟨d, hd, rfl⟩ := he
  obtain ⟨hns, hurl, -⟩ := Zim.Dirent.read_write_readBack build.host
    (hmark d (List.mem_of_getElem? hd))
  exact ⟨d, hd, rfl, hns, hurl⟩

theorem readBack_namespaces : (zc.readBack build).map Zim.Dirent.getNamespace =
    zc.entries.map Zim.Dirent.getNamespace := by
  unfold readBack entries
  rw [List.map_map, List.map_map]
  refine List.map_congr_left fun d hd => ?_
  exact (Zim.Dirent.read_write_readBack build.host (hmark d hd)).1

theorem readBack_sorted (hurls : zc.dirents.Pairwise fun d e => urlKey d ≤ urlKey e) :
    SortedBy Zim.Dirent.getUrl (zc.readBack build) := by
  unfold SortedBy readBack
  rw [List.pairwise_map]
  refine hurls.imp_of_mem fun {d e} hd he hle => ?_
  obtain ⟨hns, hurl, -⟩ := Zim.Dirent.read_write_readBack build.host (hmark d hd)
  obtain ⟨hns', hurl', -⟩ := Zim.Dirent.read_write_readBack build.host (hmark e he)
  simp only [Zim.Dirent.getNamespace, Zim.Dirent.getUrl, hns, hns', hurl, hurl']
  have hle' : toLex (charValue d.ns, d.url) ≤ toLex (charValue e.ns, e.url) := hle
  rw [charStringKey, charStringKey, Prod.Lex.toLex_le_toLex]
  rw [Prod.Lex.toLex_le_toLex] at hle'
  exact hle'.imp id fun heq => ⟨heq.1, takeWhile_mono heq.2⟩

end ReadBack

section Created
variable {md5 : Bytes → { bs : Bytes // bs.length = 16 }}

/-- The entries of a written archive are found behind its pointers, and its title index is read. -/
theorem create_indexed (h : create std build md5 minChunkSize compression src = .ok content)
    (hcount : (keptArticles src).length < 2 ^ 32)
    (hsizes : ∀ a ∈ keptArticles src, a.size < 2 ^ 32) :
    ∃ zc tmpfile, prepare std build minChunkSize compression src = .ok (zc, tmpfile) ∧
      (Fileheader.read build.host (.ofBytes content)).1 = some zc.header ∧
      ∀ mimeTypes, Archive.Indexed build ⟨content, zc.header, mimeTypes⟩ (zc.readBack build)
        zc.titleIdx := by
  obtain ⟨zc, tmpfile, hprepare, hfilled, hsized, hwritten, hread⟩ := create_ok h
  obtain ⟨as, hperm, hmade⟩ := prepare_made hprepare
  have hentries : zc.dirents.length < 2 ^ 32 := by
    rwa [← hmade.length_eq, hperm.length_eq]
  have hsizes' : ∀ d ∈ zc.dirents, d.size < 2 ^ 32 :=
    (made_forall_iff hperm hmade fun a d hm => by rw [hm.size]).mpr hsizes
  have hleads := hsized.leads hentries
  have hlen : content.length < 2 ^ 64 := by
    have hbody := hsized.body
    have hdigest := (md5 (zc.parts build tmpfile).body).property
    rw [hwritten, List.length_append, hdigest]
    simp only [maxOffset] at hbody
    omega
  refine ⟨zc, tmpfile, hprepare, hread, fun mimeTypes => ⟨?_, ?_, ?_, ?_⟩⟩
  · rw [readBack, List.length_map, articleCount_toNat hfilled hentries]
  · intro i e he
    obtain ⟨d, hd, rfl, -⟩ := getElem?_readBack (prepare_mark hprepare) he
    exact hleads.dirent hfilled hsized hentries hwritten hlen hsizes' hd
      (prepare_mark hprepare d (List.mem_of_getElem? hd)) mimeTypes
  · intro i t ht
    exact hleads.index hfilled hsized hentries hwritten hlen ht mimeTypes
  · rw [readBack, List.length_map]
    exact prepare_titleIdx_perm hprepare

end Created

end ZimCreator
end Zim.Writer
