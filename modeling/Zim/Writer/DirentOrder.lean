import Zim.Writer.Clusters
import Zim.Writer.InvalidRedirects

/-! The order of the entries that `createDirents` leaves, and the indices that it gives them. -/
namespace Zim.Writer
open Cxx

namespace ZimCreator

section Keys
variable {mimeTypes : List Bytes} {a : ArticleSource.Article} {d : Dirent} {src : ArticleSource}
  {as : List ArticleSource.Article} {ds : List Dirent}

/-- The key of the entry of an article. -/
def articleKey (a : ArticleSource.Article) : ℤ ×ₗ Bytes := charStringKey a.ns a.url

theorem made_urlKey (h : Made mimeTypes a d) : articleKey a = urlKey d := by
  unfold articleKey urlKey Zim.Dirent.getNamespace Zim.Dirent.getUrl
  rw [h.ns, h.url]

theorem nodup_keptArticles {κ : Type} {key : ArticleSource.Article → κ}
    (h : (src.articles.map key).Nodup) : ((keptArticles src).map key).Nodup :=
  h.sublist (List.filter_sublist.map key)

theorem articleKey_nodup (hurls : src.DistinctUrls) : (src.articles.map articleKey).Nodup := by
  have hinj : Function.Injective fun p : UInt8 × Bytes => charStringKey p.1 p.2 := by
    rintro ⟨ns, url⟩ ⟨ns', url'⟩ heq
    obtain ⟨hns, hurl⟩ := charStringKey_inj.mp heq
    exact Prod.ext hns hurl
  have hmap := hurls.map hinj
  rw [List.map_map] at hmap
  exact hmap

/-- The entries of articles with distinct urls have distinct keys. -/
theorem urlKey_nodup (hurls : src.DistinctUrls) (hperm : as.Perm (keptArticles src))
    (hmade : List.Forall₂ (Made mimeTypes) as ds) : (ds.map urlKey).Nodup := by
  have hkeys : as.map articleKey = ds.map urlKey :=
    forall₂_map_eq hmade fun a d hm => made_urlKey hm
  rw [← hkeys]
  exact (hperm.map _).nodup_iff.mpr (nodup_keptArticles (articleKey_nodup hurls))

end Keys

section Places
variable {std : StdSort} {collected dirents : List Dirent} (st : Stages std collected dirents)

/-- What the translation of the redirects keeps of an entry. -/
def position (d : Dirent) : (ℤ ×ₗ Bytes) × Bytes × UInt32 := (urlKey d, d.aid, d.idx)

theorem translateRedirect_position {ds : List Dirent} {d d' : Dirent}
    (h : translateRedirect ds d = .ok d') : position d = position d' := by
  obtain ⟨hredirect, harticle⟩ := translateRedirect_ok h
  by_cases hd : d.isRedirect = true
  · obtain ⟨e, -, -, rfl⟩ := hredirect hd
    rfl
  · rw [harticle (eq_false_of_ne_true hd)]

theorem setIndex_urlKey (ds : List Dirent) : (setIndex ds).map urlKey = ds.map urlKey := by
  refine List.ext_getElem (by simp [setIndex]) fun i hi hi' => ?_
  simp only [setIndex, List.getElem_map, List.getElem_mapIdx]
  rfl

theorem setIndex_idx (ds : List Dirent) : (setIndex ds).map (fun d => d.idx) =
    (List.range ds.length).map UInt32.ofNat := by
  refine List.ext_getElem (by simp [setIndex]) fun i hi hi' => ?_
  simp only [setIndex, List.getElem_map, List.getElem_mapIdx, List.getElem_range]
  rfl

include st

theorem Stages.positions_perm :
    (dirents.map position).Perm (st.indexed.map position) := by
  have htranslated : (std.sort compareAid st.indexed).map position = st.translated.map position :=
    forall₂_map_eq st.translated_ok fun d d' h => translateRedirect_position h
  have hsort : (std.sort compareUrl st.translated).Perm st.translated :=
    StdSort.sort_perm compareUrl_iff std
  have hlast : dirents.Perm st.translated := (List.Perm.of_eq st.dirents_eq).trans hsort
  apply (hlast.map position).trans
  rw [← htranslated]
  exact (StdSort.sort_perm compareAid_iff std).map position

/-- The indices are the positions, if not in their order. -/
theorem Stages.idx_perm : (dirents.map fun d => d.idx).Perm
    ((List.range dirents.length).map UInt32.ofNat) := by
  have hperm := st.positions_perm.map fun p => p.2.2
  rw [List.map_map, List.map_map] at hperm
  have hidx : (dirents.map fun d => d.idx).Perm (st.indexed.map fun d => d.idx) := hperm
  have hlen := hidx.length_eq
  have hsort := congrArg List.length st.indexed_eq
  rw [List.length_map, List.length_map] at hlen
  rw [st.indexed_eq, setIndex_idx] at hidx
  rw [setIndex, List.length_mapIdx] at hsort
  rwa [hlen, hsort]

/-- The position of an entry behind the second sort is its position behind the fourth. -/
theorem Stages.positions_eq (hnodup : (dirents.map urlKey).Nodup) :
    dirents.map position = st.indexed.map position := by
  have hperm := st.positions_perm
  have hkeys : (dirents.map urlKey).Perm (st.indexed.map urlKey) := by
    have hfst := hperm.map Prod.fst
    rw [List.map_map, List.map_map] at hfst
    exact hfst
  have hdirents : dirents.Pairwise fun d e => urlKey d < urlKey e := by
    refine pairwise_lt ?_ hnodup
    rw [st.dirents_eq]
    exact StdSort.sort_sorted compareUrl_iff std
  have hindexed : st.indexed.Pairwise fun d e => urlKey d < urlKey e := by
    refine pairwise_lt ?_ (hkeys.nodup_iff.mp hnodup)
    have hsorted : (std.sort compareUrl st.kept).Pairwise fun d e => urlKey d ≤ urlKey e :=
      StdSort.sort_sorted compareUrl_iff std
    rw [← List.pairwise_map, ← setIndex_urlKey, List.pairwise_map] at hsorted
    rw [st.indexed_eq]
    exact hsorted
  have hlt : ∀ p q : (ℤ ×ₗ Bytes) × Bytes × UInt32, p.1 < q.1 → q.1 < p.1 → p = q :=
    fun p q hpq hqp => absurd hqp (lt_asymm hpq)
  apply hperm.eq_of_pairwise (fun p q _ _ => hlt p q)
  · exact List.pairwise_map.mpr hdirents
  · exact List.pairwise_map.mpr hindexed

end Places

section Created

/-- The article has an entry. -/
def Present (zc : ZimCreator) (a : ArticleSource.Article) : Prop := ∃ d ∈ zc.dirents, d.aid = a.aid

/-- What `createDirents` makes of a source. The indices have 32 bits. -/
structure Created (src : ArticleSource) (zc : ZimCreator) : Prop where
  sorted : zc.dirents.Pairwise fun d e => urlKey d < urlKey e
  idx : ∀ (i : ℕ) (d : Dirent), zc.dirents[i]? = some d → d.idx.toNat = i % 2 ^ 32
  /-- No article is lost or has two entries, and nothing else has one. -/
  made : ∃ as, as.Perm (keptArticles src) ∧ List.Forall₂ (Made zc.mimeTypes) as zc.dirents
  nonRedirects : ∃ as, as.Perm (src.articles.filter fun a => !a.redirect) ∧
    List.Forall₂ (Made zc.mimeTypes) as (articles zc.dirents)
  redirects : ∀ a ∈ src.articles, a.redirect = true →
    (Present zc a ↔ ∃ b ∈ src.articles, b.aid = a.redirectAid ∧ Present zc b)
  target : ∀ d ∈ zc.dirents, d.isRedirect = true → ∃ (j : ℕ) (e : Dirent),
    zc.dirents[j]? = some e ∧ e.aid = d.redirectAid ∧ d.redirectIndex.toNat = j % 2 ^ 32

variable {std : StdSort} {src : ArticleSource} {zc zc' : ZimCreator}

theorem not_dangling_article {a : ArticleSource.Article} (ha : a.redirect = false)
    (l : List ArticleSource.Article) :
    ¬ Links.Dangling ArticleSource.Article.aid ArticleSource.Article.target l a := by
  rintro ⟨htarget⟩
  simp [ArticleSource.Article.target, ha] at htarget

theorem keptArticles_articles : (keptArticles src).filter (fun a => !a.redirect) =
    src.articles.filter fun a => !a.redirect := by
  unfold keptArticles
  rw [List.filter_filter]
  refine List.filter_congr fun a _ => ?_
  by_cases ha : a.redirect = true
  · simp [ha]
  · have hnot := not_dangling_article (eq_false_of_ne_true ha) src.articles
    simp [ha, hnot]

theorem made_articles {as : List ArticleSource.Article} (hperm : as.Perm (keptArticles src))
    (hmade : List.Forall₂ (Made zc.mimeTypes) as zc.dirents) :
    (as.filter fun a => !a.redirect).Perm (src.articles.filter fun a => !a.redirect) ∧
      List.Forall₂ (Made zc.mimeTypes) (as.filter fun a => !a.redirect)
        (articles zc.dirents) := by
  constructor
  · rw [← keptArticles_articles]
    exact hperm.filter _
  · refine List.rel_filter (fun a d hm => ?_) hmade
    have hr : d.isRedirect = a.redirect := hm.redirect
    simp only [hr]

/-- An article has an entry if and only if it is kept. -/
theorem present_iff (haids : src.DistinctAids) {as : List ArticleSource.Article}
    (hperm : as.Perm (keptArticles src))
    (hmade : List.Forall₂ (Made zc.mimeTypes) as zc.dirents) {a : ArticleSource.Article}
    (ha : a ∈ src.articles) : Present zc a ↔ a ∈ keptArticles src := by
  constructor
  · rintro ⟨d, hd, haid⟩
    obtain ⟨i, hi, rfl⟩ := List.getElem_of_mem hd
    have hi' := hmade.length_eq.symm ▸ hi
    have hm := hmade.get hi' hi
    have hkept := hperm.mem_iff.mp (List.getElem_mem hi')
    have heq := List.inj_on_of_nodup_map haids (mem_keptArticles_iff.mp hkept).1 ha
      (hm.aid.symm.trans haid)
    exact heq ▸ hkept
  · intro hkept
    obtain ⟨i, hi, rfl⟩ := List.getElem_of_mem (hperm.mem_iff.mpr hkept)
    have hi' := hmade.length_eq ▸ hi
    exact ⟨_, List.getElem_mem hi', (hmade.get hi hi').aid⟩

theorem redirect_kept_iff {a : ArticleSource.Article}
    (ha : a ∈ src.articles) (hr : a.redirect = true) : a ∈ keptArticles src ↔
      ∃ b ∈ src.articles, b.aid = a.redirectAid ∧ b ∈ keptArticles src := by
  have htarget : a.target = some a.redirectAid := if_pos hr
  rw [mem_keptArticles_iff]
  constructor
  · rintro ⟨-, hnot⟩
    by_contra hnone
    refine hnot (.intro htarget fun b hb haid => ?_)
    by_contra hb'
    exact hnone ⟨b, hb, haid, mem_keptArticles_iff.mpr ⟨hb, hb'⟩⟩
  · rintro ⟨b, hb, haid, hkept⟩
    refine ⟨ha, ?_⟩
    rintro ⟨hk, hall⟩
    rw [htarget] at hk
    cases hk
    exact (mem_keptArticles_iff.mp hkept).2 (hall b hb haid)

/-- The index of an entry is its position, and the index of a redirect the one of its target. -/
theorem Stages.indices {collected dirents : List Dirent} (st : Stages std collected dirents)
    (hnodup : (dirents.map urlKey).Nodup) :
    (∀ (i : ℕ) (d : Dirent), dirents[i]? = some d → d.idx = UInt32.ofNat i) ∧
      ∀ d ∈ dirents, d.isRedirect = true → ∃ (j : ℕ) (e : Dirent),
        dirents[j]? = some e ∧ e.aid = d.redirectAid ∧ d.redirectIndex = UInt32.ofNat j := by
  have hpositions := st.positions_eq hnodup
  have hlen : dirents.length = st.indexed.length := by
    simpa using congrArg List.length hpositions
  have hindexed (i : ℕ) (hi : i < st.indexed.length) : st.indexed[i].idx = UInt32.ofNat i := by
    simp only [st.indexed_eq, setIndex, List.getElem_mapIdx]
    rfl
  have hposition (i : ℕ) (hi : i < dirents.length) (hi' : i < st.indexed.length) :
      position dirents[i] = position st.indexed[i] := by
    have hget := congrArg (fun l => l[i]?) hpositions
    simp only [List.getElem?_map, List.getElem?_eq_getElem hi, List.getElem?_eq_getElem hi',
      Option.map_some, Option.some.injEq] at hget
    exact hget
  constructor
  · intro i d hd
    obtain ⟨hi, rfl⟩ := List.getElem?_eq_some_iff.mp hd
    have hi' : i < st.indexed.length := hlen ▸ hi
    have hidx := congrArg (fun p => p.2.2) (hposition i hi hi')
    exact hidx.trans (hindexed i hi')
  · intro d hd hr
    have hmem : d ∈ st.translated := by
      have hsort : (std.sort compareUrl st.translated).Perm st.translated :=
        StdSort.sort_perm compareUrl_iff std
      exact hsort.mem_iff.mp (st.dirents_eq ▸ hd)
    obtain ⟨i, hi, rfl⟩ := List.getElem_of_mem hmem
    have hi' := st.translated_ok.length_eq.symm ▸ hi
    obtain ⟨hredirect, harticle⟩ := translateRedirect_ok (st.translated_ok.get hi' hi)
    simp only [List.get_eq_getElem] at hredirect harticle
    by_cases hx : (std.sort compareAid st.indexed)[i].isRedirect = true
    · obtain ⟨e, he, haid, heq⟩ := hredirect hx
      rw [(StdSort.sort_perm compareAid_iff std).mem_iff] at he
      obtain ⟨j, hj, rfl⟩ := List.getElem_of_mem he
      have hj' : j < dirents.length := hlen ▸ hj
      refine ⟨j, dirents[j], List.getElem?_eq_getElem hj', ?_, ?_⟩
      · have haid' := congrArg (fun p => p.2.1) (hposition j hj' hj)
        rw [heq]
        exact haid'.trans haid
      · rw [heq]
        exact hindexed j hj
    · rw [harticle (eq_false_of_ne_true hx)] at hr
      exact absurd hr hx

theorem createDirents_created (haids : src.DistinctAids) (hurls : src.DistinctUrls)
    (hnew : zc.dirents = [] ∧ zc.mimeTypes = []) (h : zc.createDirents std src = .ok zc') :
    Created src zc' := by
  obtain ⟨collected, -, ⟨st⟩, -, -⟩ := createDirents_stages h hnew
  obtain ⟨as, hperm, hmade⟩ := createDirents_made h hnew
  have hnodup := urlKey_nodup hurls hperm hmade
  obtain ⟨hidx, htarget⟩ := st.indices hnodup
  refine ⟨pairwise_lt ?_ hnodup, ?_, ⟨as, hperm, hmade⟩, ⟨_, made_articles hperm hmade⟩, ?_, ?_⟩
  · rw [st.dirents_eq]
    exact StdSort.sort_sorted compareUrl_iff std
  · intro i d hd
    rw [hidx i d hd, UInt32.toNat_ofNat']
  · intro a ha hr
    rw [present_iff haids hperm hmade ha, redirect_kept_iff ha hr]
    constructor
    · rintro ⟨b, hb, haid, hkept⟩
      exact ⟨b, hb, haid, (present_iff haids hperm hmade hb).mpr hkept⟩
    · rintro ⟨b, hb, haid, hpresent⟩
      exact ⟨b, hb, haid, (present_iff haids hperm hmade hb).mp hpresent⟩
  · intro d hd hr
    obtain ⟨j, e, he, haid, hindex⟩ := htarget d hd hr
    exact ⟨j, e, he, haid, by rw [hindex, UInt32.toNat_ofNat']⟩

/-- The entries that `createDirents` leaves in a new creator. -/
theorem createDirents_new {minChunkSize : UInt32} {compression : CompressionType}
    (haids : src.DistinctAids) (hurls : src.DistinctUrls)
    (h : (new minChunkSize compression).createDirents std src = .ok zc) : Created src zc :=
  createDirents_created haids hurls ⟨rfl, rfl⟩ h

/-- Articles with and without a title in two namespaces, a redirect to the second of them and a
redirect that leads nowhere. -/
def twoNamespaces : ArticleSource where
  articles := [⟨[2], 66, [0x61], [], false, [0x74], false, [], []⟩,
    ⟨[1], 65, [0x62], [0x7A], false, [0x70], true, [], []⟩,
    ⟨[4], 65, [0x63], [], true, [], false, [9], []⟩,
    ⟨[3], 65, [0x64], [0x79], true, [], false, [1], []⟩]
  getData _ := ⟨[], noBytes_small⟩
  uuid := zeroUuid
  mainPage := []
  layoutPage := []

theorem twoNamespaces_urls : twoNamespaces.DistinctUrls := by
  unfold ArticleSource.DistinctUrls
  decide

theorem createDirents_new_twoNamespaces : ∃ zc,
    (new 1 .zimcompNone).createDirents .insertion twoNamespaces = .ok zc ∧
      Created twoNamespaces zc := by
  obtain ⟨zc, hok⟩ := Fallible.exists_ok
    (x := (new 1 .zimcompNone).createDirents .insertion twoNamespaces) (by decide +kernel)
  refine ⟨zc, hok, createDirents_new ?_ twoNamespaces_urls hok⟩
  unfold ArticleSource.DistinctAids
  decide

end Created

section Many

/-- A source with `n` articles that only differ in their aids and urls. -/
def manyArticles (n : ℕ) : ArticleSource where
  articles := (List.range n).map fun i =>
    ⟨LittleEndian.encode 8 i, 65, LittleEndian.encode 8 i, [], false, [], false, [], []⟩
  getData _ := ⟨[], noBytes_small⟩
  uuid := zeroUuid
  mainPage := []
  layoutPage := []

theorem addArticle_article {zc : ZimCreator} {a : ArticleSource.Article}
    (hr : a.redirect = false) (hm : a.mimeType = [])
    (hzc : zc.mimeTypes = [] ∨ zc.mimeTypes = [[]]) :
    ∃ zc', addArticle zc a = .ok zc' ∧ (zc'.mimeTypes = [] ∨ zc'.mimeTypes = [[]]) := by
  have hidx : ∃ idx zc', zc.getMimeTypeIdx [] = .ok (idx, zc') ∧ zc'.mimeTypes = [[]] := by
    unfold getMimeTypeIdx
    rcases hzc with hzc | hzc
    · refine ⟨0, { zc with mimeTypes := zc.mimeTypes ++ [[]] }, ?_, by simp [hzc]⟩
      simp [hzc]
    · refine ⟨0, zc, ?_, hzc⟩
      simp [hzc]
  obtain ⟨idx, zc', hok, hmime⟩ := hidx
  unfold addArticle
  simp only [hr, hm, Bool.false_eq_true, if_false]
  exact ⟨_, Fallible.bind_eq_ok.mpr ⟨_, hok, rfl⟩, .inr hmime⟩

theorem addArticles_exists {articles : List ArticleSource.Article} {zc : ZimCreator}
    (hall : ∀ a ∈ articles, a.redirect = false ∧ a.mimeType = [])
    (hzc : zc.mimeTypes = [] ∨ zc.mimeTypes = [[]]) :
    ∃ zc', articles.foldlM addArticle zc = .ok zc' := by
  induction articles generalizing zc with
  | nil => exact ⟨zc, rfl⟩
  | cons a articles ih =>
    obtain ⟨hr, hm⟩ := hall a List.mem_cons_self
    obtain ⟨zc₁, hstep, hzc₁⟩ := addArticle_article hr hm hzc
    obtain ⟨zc', hrest⟩ := ih (fun a ha => hall a (List.mem_cons_of_mem _ ha)) hzc₁
    exact ⟨zc', by rw [List.foldlM_cons]; exact Fallible.bind_eq_ok.mpr ⟨zc₁, hstep, hrest⟩⟩

theorem encode_inj {i j : ℕ} (hi : i < 2 ^ 64) (hj : j < 2 ^ 64)
    (h : LittleEndian.encode 8 i = LittleEndian.encode 8 j) : i = j := by
  have hdecode := congrArg LittleEndian.decode h
  rwa [LittleEndian.decode_encode_of_lt (by omega), LittleEndian.decode_encode_of_lt (by omega)]
    at hdecode

theorem manyArticles_nodup {κ : Type} {n : ℕ} (hn : n ≤ 2 ^ 64) {f : ArticleSource.Article → κ}
    {g : Bytes → κ} (hg : Function.Injective g)
    (hf : ∀ bs, f ⟨bs, 65, bs, [], false, [], false, [], []⟩ = g bs) :
    ((manyArticles n).articles.map f).Nodup := by
  unfold manyArticles
  rw [List.map_map]
  refine List.Nodup.map_on (fun i hi j hj heq => ?_) List.nodup_range
  rw [List.mem_range] at hi hj
  simp only [Function.comp_apply, hf] at heq
  exact encode_inj (by omega) (by omega) (hg heq)

/-- The entries of a source that is as large as one likes. -/
theorem createDirents_many (std : StdSort) {n : ℕ} (hn : n ≤ 2 ^ 64) :
    (manyArticles n).DistinctAids ∧ (manyArticles n).DistinctUrls ∧
      ∃ zc, (new 1 .zimcompNone).createDirents std (manyArticles n) = .ok zc ∧
        zc.dirents.length = n := by
  have haids : (manyArticles n).DistinctAids :=
    manyArticles_nodup hn Function.injective_id fun _ => rfl
  have hurls : (manyArticles n).DistinctUrls :=
    manyArticles_nodup hn (Prod.mk_right_injective 65) fun _ => rfl
  refine ⟨haids, hurls, ?_⟩
  have hall : ∀ a ∈ (manyArticles n).articles, a.redirect = false ∧ a.mimeType = [] := by
    intro a ha
    obtain ⟨i, -, rfl⟩ := List.mem_map.mp ha
    exact ⟨rfl, rfl⟩
  obtain ⟨zc₁, hcollect⟩ := @addArticles_exists _ (new 1 .zimcompNone) hall (.inl rfl)
  obtain ⟨ds, more, hzc₁, hmade, -⟩ := addArticles_made hcollect (by simp [new])
  have hdirents : zc₁.dirents = ds := by rw [hzc₁]; rfl
  have hclean : NoneMissing (removeInvalidRedirects [] (std.sort compareAid zc₁.dirents)) := by
    intro d hd hr
    have hmem := removeInvalidRedirects_subset hd
    rw [List.nil_append, (StdSort.sort_perm compareAid_iff std).mem_iff, hdirents] at hmem
    obtain ⟨i, hi, rfl⟩ := List.getElem_of_mem hmem
    have hi' := hmade.length_eq.symm ▸ hi
    have hredirect : ds[i].isRedirect = (manyArticles n).articles[i].redirect :=
      (hmade.get hi' hi).redirect
    rw [hr, (hall _ (List.getElem_mem hi')).1] at hredirect
    cases hredirect
  have hexists : ∃ zc, (new 1 .zimcompNone).createDirents std (manyArticles n) = .ok zc :=
    createDirents_exists hcollect hclean
  obtain ⟨zc, hok⟩ := hexists
  refine ⟨zc, hok, ?_⟩
  obtain ⟨as, hperm, hentries⟩ := createDirents_made hok ⟨rfl, rfl⟩
  have hkept : keptArticles (manyArticles n) = (manyArticles n).articles := by
    unfold keptArticles
    rw [List.filter_eq_self]
    intro a ha
    simpa using not_dangling_article (hall a ha).1 _
  rw [← hentries.length_eq, hperm.length_eq, hkept]
  simp [manyArticles]

/-- The index of an entry has 32 bits. -/
theorem not_createDirents_new :
    ¬ ∀ (std : StdSort) (minChunkSize : UInt32) (compression : CompressionType)
      (src : ArticleSource) (zc : ZimCreator), src.DistinctAids → src.DistinctUrls →
      (new minChunkSize compression).createDirents std src = .ok zc →
      ∀ (i : ℕ) (d : Dirent), zc.dirents[i]? = some d → d.idx.toNat = i := by
  intro hall
  obtain ⟨haids, hurls, zc, hok, hlen⟩ := createDirents_many .insertion (n := 2 ^ 32 + 1)
    (by decide)
  have hlt : 2 ^ 32 < zc.dirents.length := by omega
  have hidx := hall .insertion 1 .zimcompNone _ zc haids hurls hok (2 ^ 32) _
    (List.getElem?_eq_getElem hlt)
  have hbound := zc.dirents[2 ^ 32].idx.toNat_lt
  omega

end Many

end ZimCreator
end Zim.Writer
