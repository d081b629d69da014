import Zim.Reader.LookupLaw
import Zim.Writer.DirentOrder

/-! The title index that `createTitleIndex` makes of the entries in the order of their urls. -/
namespace Zim.Writer
open Cxx
namespace ZimCreator

/-- The order of the title index. -/
def titleKey (dirents : List Dirent) (i : UInt32) : ℤ ×ₗ Bytes :=
  charStringKey (dirents.getD i.toNat (.new [])).getNamespace
    (dirents.getD i.toNat (.new [])).getTitle

theorem compareTitle_iff (dirents : List Dirent) (i j : UInt32) :
    compareTitle dirents i j = true ↔ titleKey dirents i < titleKey dirents j := by
  simp [compareTitle, titleKey, charStringKey_lt]

section Order
variable {std : StdSort} {src : ArticleSource} {zc zc' : ZimCreator} {es : List Zim.Dirent}
  {ts : List UInt32}

/-- The entries as they are written. -/
def entries (zc : ZimCreator) : List Zim.Dirent := zc.dirents.map fun d => d.toDirent

theorem titleKey_eq (zc : ZimCreator) (i : UInt32) :
    titleKey zc.dirents i = charStringKey (zc.entries.getD i.toNat .new).getNamespace
      (zc.entries.getD i.toNat .new).getTitle := by
  have hget : zc.entries.getD i.toNat .new = (zc.dirents.getD i.toNat (.new [])).toDirent :=
    List.getD_map _ (Dirent.new []) Dirent.toDirent
  rw [titleKey, hget]

/-- What a title index is to the readers of an archive. The order of the titles keeps the
namespaces where they are in the order of the urls. -/
structure TitleOrdered (es : List Zim.Dirent) (ts : List UInt32) : Prop where
  perm : (ts.map UInt32.toNat).Perm (List.range es.length)
  sorted : SortedBy Zim.Dirent.getTitle (byTitle es ts)
  byTitle : ∀ (ch : UInt8) (i : ℕ) (d : Zim.Dirent), (byTitle es ts)[i]? = some d →
    (d.getNamespace = ch ↔ namespaceBegin es ch ≤ i ∧ i < namespaceEnd es ch)
  byUrl : ∀ (ch : UInt8) (i : ℕ) (d : Zim.Dirent), es[i]? = some d →
    (d.getNamespace = ch ↔ namespaceBegin es ch ≤ i ∧ i < namespaceEnd es ch)

/-- A sorted permutation of the positions is a title index. -/
theorem titleOrdered_of (hlen : es.length ≤ 2 ^ 32)
    (hperm : ts.Perm ((List.range es.length).map UInt32.ofNat))
    (hurl : SortedBy Zim.Dirent.getUrl es) (htitle : SortedBy Zim.Dirent.getTitle (byTitle es ts)) :
    TitleOrdered es ts where
  perm := by
    have hmap := hperm.map UInt32.toNat
    have hrange : ((List.range es.length).map UInt32.ofNat).map UInt32.toNat =
        List.range es.length := by
      rw [List.map_map]
      refine (List.map_congr_left fun i hi => ?_).trans (List.map_id _)
      exact UInt32.toNat_ofNat_of_lt' ((List.mem_range.mp hi).trans_le hlen)
    rwa [hrange] at hmap
  sorted := htitle
  byTitle ch i d hd := by
    have hentries := File.byTitle_perm_of hlen hperm
    have hbegin : namespaceBegin (Zim.byTitle es ts) ch = namespaceBegin es ch :=
      hentries.countP_eq _
    have hend : namespaceEnd (Zim.byTitle es ts) ch = namespaceEnd es ch :=
      hentries.countP_eq _
    rw [← hbegin, ← hend]
    exact File.namespace_iff htitle hd
  byUrl ch i d hd := File.namespace_iff hurl hd

theorem createTitleIndex_perm (std : StdSort) (hidx : (zc.dirents.map fun di => di.idx).Perm
    ((List.range zc.dirents.length).map UInt32.ofNat)) :
    (zc.createTitleIndex std).titleIdx.Perm
      ((List.range zc.dirents.length).map UInt32.ofNat) :=
  (StdSort.sort_perm (compareTitle_iff zc.dirents) std).trans hidx

theorem createTitleIndex_sorted (std : StdSort) (zc : ZimCreator) :
    SortedBy Zim.Dirent.getTitle (byTitle zc.entries (zc.createTitleIndex std).titleIdx) := by
  have hsorted := StdSort.sort_sorted (compareTitle_iff zc.dirents) std
    (l := zc.dirents.map fun di => di.idx)
  unfold SortedBy byTitle
  rw [List.pairwise_map]
  refine hsorted.imp fun {i j} hle => ?_
  rw [titleKey_eq, titleKey_eq] at hle
  exact hle

theorem entries_sorted (h : zc.dirents.Pairwise fun d e => urlKey d ≤ urlKey e) :
    SortedBy Zim.Dirent.getUrl zc.entries := by
  unfold SortedBy entries
  rw [List.pairwise_map]
  exact h

/-- The title index of up to 2^32 entries with distinct namespaces and urls. -/
theorem createTitleIndex_ordered {minChunkSize : UInt32} {compression : CompressionType}
    (hurls : src.DistinctUrls)
    (h : (new minChunkSize compression).createDirents std src = .ok zc)
    (hcount : zc.dirents.length ≤ 2 ^ 32) :
    TitleOrdered zc.entries (zc.createTitleIndex std).titleIdx := by
  obtain ⟨collected, -, ⟨st⟩, -, -⟩ := createDirents_stages h ⟨rfl, rfl⟩
  obtain ⟨as, hperm, hmade⟩ := createDirents_made h ⟨rfl, rfl⟩
  have hnodup := urlKey_nodup hurls hperm hmade
  have hsorted : zc.dirents.Pairwise fun d e => urlKey d < urlKey e := by
    refine pairwise_lt ?_ hnodup
    rw [st.dirents_eq]
    exact StdSort.sort_sorted compareUrl_iff std
  have hlen : zc.entries.length = zc.dirents.length := List.length_map _
  refine titleOrdered_of (hlen ▸ hcount) ?_ (entries_sorted (hsorted.imp le_of_lt))
    (createTitleIndex_sorted std zc)
  rw [hlen]
  exact createTitleIndex_perm std st.idx_perm

theorem createTitleIndex_ordered_twoNamespaces : ∃ zc,
    (new 1 .zimcompNone).createDirents .insertion twoNamespaces = .ok zc ∧
      TitleOrdered zc.entries (zc.createTitleIndex .insertion).titleIdx := by
  have hthree : Fallible.passes ((new 1 .zimcompNone).createDirents .insertion twoNamespaces)
      (fun zc => zc.dirents.length = 3) = true := by decide +kernel
  obtain ⟨zc, hok, hlen⟩ := Fallible.exists_of_passes hthree
  have hlength : zc.dirents.length = 3 := of_decide_eq_true hlen
  exact ⟨zc, hok, createTitleIndex_ordered twoNamespaces_urls hok (by omega)⟩

/-- The numbers in the index have 32 bits. -/
theorem not_createTitleIndex_ordered :
    ¬ ∀ (std : StdSort) (minChunkSize : UInt32) (compression : CompressionType)
      (src : ArticleSource) (zc : ZimCreator), src.DistinctUrls →
      (new minChunkSize compression).createDirents std src = .ok zc →
      TitleOrdered zc.entries (zc.createTitleIndex std).titleIdx := by
  intro hall
  obtain ⟨-, hurls, zc, hok, hlen⟩ := createDirents_many .insertion (n := 2 ^ 32 + 1) (by decide)
  have hperm := (hall .insertion 1 .zimcompNone _ zc hurls hok).perm
  have hmem : 2 ^ 32 ∈ List.range zc.entries.length := by
    rw [List.mem_range, entries, List.length_map]
    omega
  obtain ⟨t, -, ht⟩ := List.mem_map.mp (hperm.mem_iff.mpr hmem)
  have hbound := t.toNat_lt
  omega

end Order

end ZimCreator
end Zim.Writer
