import Zim.Reader.SearchLaw
import Zim.Writer.Written

/-! Searches for titles in the archives that `create` has written. -/
namespace Zim.Writer
open Cxx Stateful FileImpl
namespace ZimCreator
variable {std : StdSort} {build : Build} {minChunkSize : UInt32} {compression : CompressionType}
  {src : ArticleSource} {zc : ZimCreator} {tmpfile content : Bytes}

section Titles

/-- Entries whose strings have no zeros are read in the order of their titles. -/
theorem readBack_titles (hmark : ∀ d ∈ zc.dirents, d.redirect = true ↔ d.mimeType = 0xffff)
    (hstrings : ∀ d ∈ zc.dirents, 0 ∉ d.url ∧ 0 ∉ d.title)
    (htitles : SortedBy Zim.Dirent.getTitle (byTitle zc.entries zc.titleIdx)) :
    SortedBy Zim.Dirent.getTitle (byTitle (zc.readBack build) zc.titleIdx) := by
  have horder : (zc.readBack build).map titleOrder = zc.entries.map titleOrder := by
    unfold readBack entries
    rw [List.map_map, List.map_map]
    refine List.map_congr_left fun d hd => ?_
    obtain ⟨hurl, htitle⟩ := hstrings d hd
    have hns := (Zim.Dirent.read_write_readBack build.host (hmark d hd)).1
    have hkey := Zim.Dirent.readBack_getTitle build.host (hmark d hd) hurl htitle
    simp only [Function.comp_apply, titleOrder, Zim.Dirent.getNamespace, hns, hkey]
  rwa [sorted_byTitle_congr horder]

/-- The title index has the entries in the order of their namespaces, however they are read. -/
theorem readBack_byTitle_namespaces
    (hmark : ∀ d ∈ zc.dirents, d.redirect = true ↔ d.mimeType = 0xffff)
    (htitles : SortedBy Zim.Dirent.getTitle (byTitle zc.entries zc.titleIdx)) :
    (byTitle (zc.readBack build) zc.titleIdx).Pairwise fun d e =>
      charValue d.getNamespace ≤ charValue e.getNamespace := by
  have hspaces : ((byTitle zc.entries zc.titleIdx).map Zim.Dirent.getNamespace).Pairwise
      fun ns ns' => charValue ns ≤ charValue ns' := List.pairwise_map.mpr htitles.namespaces
  rw [← byTitle_map_congr (@readBack_namespaces build zc hmark), List.pairwise_map] at hspaces
  exact hspaces

end Titles

section Created
variable {md5 : Bytes → { bs : Bytes // bs.length = 16 }} {direntCache clusterCache : ℕ}
  {f₀ : FileImpl}

/-- Two articles with one title. -/
def sameTitles : ArticleSource where
  articles := [⟨[1], 65, [97], [116], false, [120], false, [], []⟩,
    ⟨[2], 65, [98], [116], false, [120], false, [], []⟩]
  getData _ := ⟨[], noBytes_small⟩
  uuid := zeroUuid
  mainPage := []
  layoutPage := []

theorem sameTitles_kept : keptArticles sameTitles = sameTitles.articles :=
  keptArticles_eq_self (by decide)

/-- The first entry of `sameTitles`. -/
def firstOfTwo : Zim.Dirent := { Zim.Dirent.new with ns := 65, url := [97], title := [116] }

/-- The search for the title comes to the second of the two entries. -/
theorem sameTitles_searched : ∃ content f,
    create .insertion .noCodecs zeroDigest 1 .zimcompNone sameTitles = .ok content ∧
    FileImpl.new .noCodecs content 2 2 = .ok f ∧ f.header.articleCount = 2 ∧
    (Archive.mk content f.header f.mimeTypes).dirent .noCodecs 0 = .ok firstOfTwo ∧
    outcome (Search.find .noCodecs [] 65 [116] 9 f) = .ok (Search.resultsOf [1]) := by
  have hcheck : Fallible.passes
      (create .insertion .noCodecs zeroDigest 1 .zimcompNone sameTitles) (fun content =>
        Fallible.passes (FileImpl.new .noCodecs content 2 2) fun f =>
          f.header.articleCount = 2 &&
            (Archive.mk content f.header f.mimeTypes).dirent .noCodecs 0 = .ok firstOfTwo &&
            outcome (Search.find .noCodecs [] 65 [116] 9 f) =
              .ok (Search.resultsOf [1])) = true := by decide +kernel
  obtain ⟨content, hcreate, hopens⟩ := Fallible.exists_of_passes hcheck
  obtain ⟨f, hnew, hf⟩ := Fallible.exists_of_passes hopens
  simp only [Bool.and_eq_true, decide_eq_true_eq, and_assoc] at hf
  exact ⟨content, f, hcreate, hnew, hf⟩

end Created
end ZimCreator
end Zim.Writer
