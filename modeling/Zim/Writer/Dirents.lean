import Mathlib.Data.List.Perm.Basic
import Zim.Lib.Fallible
import Zim.Lib.Links
import Zim.Writer.ZimCreator

/-! The entries that `createDirents` makes of the articles of a source. -/
namespace Zim.Writer
open Cxx

/-- `d` is the entry of the article `a`, whatever its indices and the place of its data. -/
structure Made (mimeTypes : List Bytes) (a : ArticleSource.Article) (d : Dirent) : Prop where
  aid : d.aid = a.aid
  ns : d.ns = a.ns
  url : d.url = a.url
  title : d.title = a.title
  parameter : d.parameter = a.parameter
  redirect : d.redirect = a.redirect
  target : a.redirect = true → d.redirectAid = a.redirectAid ∧ d.mimeType = 0xffff
  article : a.redirect = false → d.compress = a.compress ∧ d.mimeType ≠ 0xffff ∧
    mimeTypes[d.mimeType.toNat]? = some a.mimeType

section Made
variable {mimeTypes more : List Bytes} {a : ArticleSource.Article} {d : Dirent}

theorem Made.mono (h : Made mimeTypes a d) : Made (mimeTypes ++ more) a d where
  aid := h.aid
  ns := h.ns
  url := h.url
  title := h.title
  parameter := h.parameter
  redirect := h.redirect
  target := h.target
  article ha := by
    obtain ⟨hcompress, hmark, hmime⟩ := h.article ha
    refine ⟨hcompress, hmark, ?_⟩
    rw [List.getElem?_append_left (List.getElem?_eq_some_iff.mp hmime).1, hmime]

theorem Made.setIdx (h : Made mimeTypes a d) (idx : UInt32) : Made mimeTypes a (d.setIdx idx) :=
  ⟨h.aid, h.ns, h.url, h.title, h.parameter, h.redirect, h.target, h.article⟩

theorem Made.setCluster (h : Made mimeTypes a d) (k b : UInt32) :
    Made mimeTypes a (d.setCluster k b) :=
  ⟨h.aid, h.ns, h.url, h.title, h.parameter, h.redirect, h.target, h.article⟩

theorem Made.setRedirect (h : Made mimeTypes a d) (hd : d.isRedirect = true) (idx : UInt32) :
    Made mimeTypes a (d.setRedirect idx) := by
  have ha : a.redirect = true := h.redirect.symm.trans hd
  refine ⟨h.aid, h.ns, h.url, h.title, h.parameter, ha.symm, fun _ => ⟨(h.target ha).1, rfl⟩, ?_⟩
  rw [ha]
  exact nofun

/-- The aid that a redirect refers to. -/
def ArticleSource.Article.target (a : ArticleSource.Article) : Option Bytes :=
  if a.redirect then some a.redirectAid else none

/-- The aid that a redirect refers to. -/
def Dirent.target (d : Dirent) : Option Bytes := if d.isRedirect then some d.redirectAid else none

/-- The bytes that the entry of an article takes. -/
def ArticleSource.Article.size (a : ArticleSource.Article) : ℕ :=
  (if a.redirect then 12 else 16) + a.url.length + a.parameter.length + 2 +
    if a.title ≠ a.url then a.title.length else 0

theorem Made.size (h : Made mimeTypes a d) : d.size = a.size := by
  unfold Zim.Dirent.size ArticleSource.Article.size Zim.Dirent.isRedirect
  rw [h.redirect, h.url, h.parameter, h.title]

/-- The mark of a redirect is its mime type. -/
theorem Made.mark (h : Made mimeTypes a d) : d.redirect = true ↔ d.mimeType = 0xffff := by
  rw [h.redirect]
  constructor
  · exact fun ha => (h.target ha).2
  · intro hm
    by_contra ha
    exact (h.article (eq_false_of_ne_true ha)).2.1 hm

theorem Made.target_eq (h : Made mimeTypes a d) : a.target = d.target := by
  unfold ArticleSource.Article.target Dirent.target Zim.Dirent.isRedirect
  rw [h.redirect]
  by_cases ha : a.redirect = true
  · rw [if_pos ha, if_pos ha, (h.target ha).1]
  · rw [if_neg ha, if_neg ha]

end Made

/-- Whether the aids of the articles tell them apart. -/
def ArticleSource.DistinctAids (src : ArticleSource) : Prop :=
  (src.articles.map fun a => a.aid).Nodup

/-- Whether the namespaces and urls of the articles tell them apart. -/
def ArticleSource.DistinctUrls (src : ArticleSource) : Prop :=
  (src.articles.map fun a => (a.ns, a.url)).Nodup

namespace ZimCreator

section Collect
variable {zc zc' : ZimCreator} {a : ArticleSource.Article}

theorem getMimeTypeIdx_ok {mimeType : Bytes} {idx : UInt16}
    (h : zc.getMimeTypeIdx mimeType = .ok (idx, zc')) (hcount : zc.mimeTypes.length ≤ 0xffff) :
    ∃ more, zc' = { zc with mimeTypes := zc.mimeTypes ++ more } ∧ more ⊆ [mimeType] ∧
      zc'.mimeTypes.length ≤ 0xffff ∧ idx ≠ 0xffff ∧ zc'.mimeTypes[idx.toNat]? = some mimeType := by
  have hfind := List.idxOf_le_length (a := mimeType) (l := zc.mimeTypes)
  unfold getMimeTypeIdx at h
  simp only at h
  generalize hi : zc.mimeTypes.idxOf mimeType = i at h hfind
  have hnum : (UInt16.ofNat i).toNat = i :=
    UInt16.toNat_ofNat_of_lt' (by simp only [UInt16.size]; omega)
  have hmark (hlt : i < 0xffff) : UInt16.ofNat i ≠ 0xffff := by
    intro heq
    have hval := congrArg UInt16.toNat heq
    rw [hnum] at hval
    exact hlt.ne hval
  split at h
  next hnew =>
    have hlen : (UInt16.ofNat zc.mimeTypes.length).toNat = zc.mimeTypes.length := hnew ▸ hnum
    split at h
    next => cases h
    next hfree =>
      rw [UInt16.le_iff_toNat_le, hlen] at hfree
      have hlt : zc.mimeTypes.length < 0xffff := Nat.lt_of_not_le hfree
      cases h
      refine ⟨[mimeType], rfl, List.Subset.refl _, by simp; omega, hmark (hnew ▸ hlt), ?_⟩
      rw [hnum, hnew]
      simp
  next hold =>
    have hlt : i < zc.mimeTypes.length := lt_of_le_of_ne hfind hold
    cases h
    refine ⟨[], by simp, List.nil_subset _, hcount, hmark (hlt.trans_le hcount), ?_⟩
    subst hi
    rw [hnum, List.getElem?_eq_getElem hlt, List.getElem_idxOf]

/-- An article is turned into its entry, and its mime type gets a number. -/
theorem addArticle_made (h : zc.addArticle a = .ok zc') (hcount : zc.mimeTypes.length ≤ 0xffff) :
    ∃ d more, zc' = { zc with dirents := zc.dirents ++ [d], mimeTypes := zc.mimeTypes ++ more } ∧
      Made zc'.mimeTypes a d ∧ zc'.mimeTypes.length ≤ 0xffff ∧
      ∀ m ∈ more, a.redirect = false ∧ m = a.mimeType := by
  unfold addArticle at h
  simp only at h
  by_cases ha : a.redirect = true
  · rw [if_pos ha] at h
    cases h
    refine ⟨_, [], by simp; rfl,
      ⟨rfl, rfl, rfl, rfl, rfl, ha.symm, fun _ => ⟨rfl, rfl⟩, ?_⟩, hcount,
      nofun⟩
    rw [ha]
    exact nofun
  · rw [if_neg ha] at h
    have ha' : a.redirect = false := eq_false_of_ne_true ha
    obtain ⟨⟨idx, zc₁⟩, hmime, h⟩ := Fallible.bind_eq_ok.mp h
    obtain ⟨more, rfl, hmore, hlen, hmark, hidx⟩ := getMimeTypeIdx_ok hmime hcount
    cases h
    refine ⟨_, more, rfl,
      ⟨rfl, rfl, rfl, rfl, rfl, ha'.symm, ?_, fun _ => ⟨rfl, hmark, hidx⟩⟩, hlen,
      fun m hm => ⟨ha', List.mem_singleton.mp (hmore hm)⟩⟩
    rw [ha']
    exact nofun

theorem addArticles_made {articles : List ArticleSource.Article}
    (h : articles.foldlM addArticle zc = .ok zc') (hcount : zc.mimeTypes.length ≤ 0xffff) :
    ∃ ds more,
      zc' = { zc with dirents := zc.dirents ++ ds, mimeTypes := zc.mimeTypes ++ more } ∧
      List.Forall₂ (Made zc'.mimeTypes) articles ds ∧
      ∀ m ∈ more, ∃ a ∈ articles, a.redirect = false ∧ m = a.mimeType := by
  induction articles generalizing zc with
  | nil =>
    cases h
    exact ⟨[], [], by simp, .nil, nofun⟩
  | cons a articles ih =>
    rw [List.foldlM_cons] at h
    obtain ⟨zc₁, hstep, h⟩ := Fallible.bind_eq_ok.mp h
    obtain ⟨d, more₁, rfl, hmade, hlen, hmore₁⟩ := addArticle_made hstep hcount
    obtain ⟨ds, more, rfl, hall, hmore⟩ := ih h hlen
    refine ⟨d :: ds, more₁ ++ more, by simp, .cons hmade.mono hall, fun m hm => ?_⟩
    rcases List.mem_append.mp hm with hm | hm
    · exact ⟨a, List.mem_cons_self, hmore₁ m hm⟩
    · obtain ⟨b, hb, hprop⟩ := hmore m hm
      exact ⟨b, List.mem_cons_of_mem _ hb, hprop⟩

end Collect

section Orders

theorem compareAid_iff (d e : Dirent) : compareAid d e = true ↔ d.aid < e.aid := by
  simp [compareAid]

/-- The order of the url pointers. -/
def urlKey (d : Dirent) : ℤ ×ₗ Bytes := charStringKey d.getNamespace d.getUrl

theorem compareUrl_iff (d e : Dirent) : compareUrl d e = true ↔ urlKey d < urlKey e := by
  simp [compareUrl, urlKey, charStringKey_lt]

end Orders

section Removal

/-- A redirect whose redirects end at a missing aid. -/
def Invalid (ds : List Dirent) (d : Dirent) : Prop := Links.Dangling Dirent.aid Dirent.target ds d

variable {all done ds : List Dirent}

/-- What the loop removes is invalid, and nothing else is where the rest is valid. -/
theorem removeInvalidRedirects_eq
    (hsorted : (done ++ ds).Pairwise fun d e => d.aid ≤ e.aid)
    (hgone : ∀ d ∈ all, d ∉ done ++ ds → Invalid all d) :
    ∃ kept, removeInvalidRedirects done ds = done ++ kept ∧ kept.Sublist ds ∧
      ∀ p : Dirent → Bool, (∀ d, p d = true ↔ ¬ Invalid all d) →
        (∀ d ∈ kept, p d = true) → kept = ds.filter p := by
  induction ds generalizing done with
  | nil => exact ⟨[], by simp [removeInvalidRedirects], .slnil, fun _ _ _ => rfl⟩
  | cons d ds ih =>
    unfold removeInvalidRedirects
    split
    next hremove =>
      simp only [Bool.and_eq_true, Bool.not_eq_true'] at hremove
      obtain ⟨hd, hsearch⟩ := hremove
      have hnone := binarySearch_eq_false compareAid_iff hsorted hsearch
      have hinvalid : Invalid all d := by
        refine .intro (if_pos hd) fun b hb hname => hgone b hb fun hmem => ?_
        exact hnone b hmem hname
      have hsorted' : (done ++ ds).Pairwise fun d e => d.aid ≤ e.aid :=
        hsorted.sublist ((List.sublist_cons_self d ds).append_left done)
      obtain ⟨kept, heq, hsub, hkept⟩ := ih hsorted' fun b hb hmem => by
        by_cases hbd : b = d
        · exact hbd ▸ hinvalid
        · refine hgone b hb fun h => hmem ?_
          simp only [List.mem_append, List.mem_cons, hbd, false_or] at h ⊢
          exact h
      refine ⟨kept, heq, hsub.cons d, fun p hp hall => ?_⟩
      have hpd : ¬ p d = true := fun h => (hp d).mp h hinvalid
      rw [List.filter_cons_of_neg hpd]
      exact hkept p hp hall
    next =>
      have hmove : done ++ [d] ++ ds = done ++ d :: ds := by simp
      obtain ⟨kept, heq, hsub, hkept⟩ := ih (hmove ▸ hsorted) (hmove ▸ hgone)
      refine ⟨d :: kept, by rw [heq]; simp, hsub.cons_cons d, fun p hp hall => ?_⟩
      rw [List.filter_cons_of_pos (hall d List.mem_cons_self)]
      rw [hkept p hp fun e he => hall e (List.mem_cons_of_mem _ he)]

end Removal
section Translation
variable {ds : List Dirent} {d d' : Dirent}

theorem translateRedirect_ok (h : translateRedirect ds d = .ok d') :
    (d.isRedirect = true → ∃ e ∈ ds, e.aid = d.redirectAid ∧ d' = d.setRedirect e.idx) ∧
      (d.isRedirect = false → d' = d) := by
  unfold translateRedirect at h
  split at h
  next hd =>
    refine ⟨fun _ => ?_, fun hd' => by rw [hd] at hd'; cases hd'⟩
    split at h
    next e he =>
      split at h
      next haid =>
        cases h
        exact ⟨e, List.mem_of_getElem? he, haid, rfl⟩
      next => cases h
    next => cases h
  next hd =>
    cases h
    exact ⟨fun hd' => absurd hd' hd, fun _ => rfl⟩

theorem translateRedirect_made {mimeTypes : List Bytes} {a : ArticleSource.Article}
    (hmade : Made mimeTypes a d) (h : translateRedirect ds d = .ok d') : Made mimeTypes a d' := by
  obtain ⟨hredirect, harticle⟩ := translateRedirect_ok h
  by_cases hd : d.isRedirect = true
  · obtain ⟨e, -, -, rfl⟩ := hredirect hd
    exact hmade.setRedirect hd e.idx
  · rw [harticle (eq_false_of_ne_true hd)]
    exact hmade

end Translation

/-- The lists that `createDirents` goes through, from the entries in the order of the source. -/
structure Stages (std : StdSort) (collected dirents : List Dirent) where
  translated : List Dirent
  kept : List Dirent
  indexed : List Dirent
  kept_eq : kept = removeInvalidRedirects [] (std.sort compareAid collected)
  indexed_eq : indexed = setIndex (std.sort compareUrl kept)
  translated_ok : List.Forall₂
    (fun d d' => translateRedirect (std.sort compareAid indexed) d = .ok d')
    (std.sort compareAid indexed) translated
  dirents_eq : dirents = std.sort compareUrl translated

theorem createDirents_stages {std : StdSort} {zc zc' : ZimCreator} {src : ArticleSource}
    (h : zc.createDirents std src = .ok zc') (hnew : zc.dirents = [] ∧ zc.mimeTypes = []) :
    ∃ collected, List.Forall₂ (Made zc'.mimeTypes) src.articles collected ∧
      Nonempty (Stages std collected zc'.dirents) ∧
      zc' = { zc with dirents := zc'.dirents, mimeTypes := zc'.mimeTypes } ∧
      ∀ m ∈ zc'.mimeTypes, ∃ a ∈ src.articles, a.redirect = false ∧ m = a.mimeType := by
  unfold createDirents at h
  obtain ⟨zc₁, hcollect, h⟩ := Fallible.bind_eq_ok.mp h
  obtain ⟨translated, htranslate, h⟩ := Fallible.bind_eq_ok.mp h
  obtain ⟨ds, more, rfl, hmade, hmore⟩ := addArticles_made hcollect (by simp [hnew])
  simp only [hnew, List.nil_append] at hmade htranslate
  cases h
  refine ⟨ds, by simpa [hnew] using hmade, ⟨⟨translated, _, _, rfl, rfl, ?_, rfl⟩⟩, rfl, ?_⟩
  · exact Fallible.mapM_ok htranslate
  · simpa [hnew] using hmore

section Kept
variable {std : StdSort} {kept : List Dirent}

theorem exists_of_mem_indexed {e : Dirent}
    (he : e ∈ std.sort compareAid (setIndex (std.sort compareUrl kept))) :
    ∃ d ∈ kept, ∃ i, e = d.setIdx i := by
  rw [(StdSort.sort_perm compareAid_iff std).mem_iff] at he
  obtain ⟨i, hi, rfl⟩ := List.mem_mapIdx.mp he
  have hmem : (std.sort compareUrl kept)[i] ∈ kept :=
    (StdSort.sort_perm compareUrl_iff std).mem_iff.mp (List.getElem_mem hi)
  exact ⟨_, hmem, _, rfl⟩

theorem exists_mem_indexed {d : Dirent} (hd : d ∈ kept) :
    ∃ i, d.setIdx i ∈ std.sort compareAid (setIndex (std.sort compareUrl kept)) := by
  rw [← (StdSort.sort_perm compareUrl_iff std).mem_iff] at hd
  obtain ⟨i, hi, rfl⟩ := List.getElem_of_mem hd
  refine ⟨UInt32.ofNat i, ?_⟩
  rw [(StdSort.sort_perm compareAid_iff std).mem_iff]
  exact List.mem_mapIdx.mpr ⟨i, hi, rfl⟩

variable {collected dirents : List Dirent} (st : Stages std collected dirents)
include st

theorem Stages.indexed_mem {e : Dirent} (he : e ∈ std.sort compareAid st.indexed) :
    ∃ d ∈ st.kept, ∃ i, e = d.setIdx i := by
  rw [st.indexed_eq] at he
  exact exists_of_mem_indexed he

theorem Stages.mem_indexed {d : Dirent} (hd : d ∈ st.kept) :
    ∃ i, d.setIdx i ∈ std.sort compareAid st.indexed := by
  rw [st.indexed_eq]
  exact exists_mem_indexed hd

/-- The redirects that were kept refer to entries that were kept: otherwise their translation would
have thrown. -/
theorem Stages.kept_target {d : Dirent} (hd : d ∈ st.kept) {k : Bytes} (hk : d.target = some k) :
    ∃ e ∈ st.kept, e.aid = k := by
  have hredirect : d.isRedirect = true ∧ d.redirectAid = k := by
    unfold Dirent.target at hk
    split at hk
    next hredirect => exact ⟨hredirect, Option.some.inj hk⟩
    next => cases hk
  obtain ⟨i, hmem⟩ := st.mem_indexed hd
  obtain ⟨j, hj, hget⟩ := List.getElem_of_mem hmem
  have htranslate := st.translated_ok.get hj (st.translated_ok.length_eq ▸ hj)
  simp only [List.get_eq_getElem, hget] at htranslate
  obtain ⟨e, he, haid, -⟩ := (translateRedirect_ok htranslate).1 hredirect.1
  obtain ⟨e', he', _, rfl⟩ := st.indexed_mem he
  exact ⟨e', he', haid.trans hredirect.2⟩

/-- The entries kept are the ones that are not invalid. -/
theorem Stages.kept_perm {p : Dirent → Bool} (hp : ∀ d, p d = true ↔ ¬ Invalid collected d) :
    st.kept.Perm (collected.filter p) := by
  have hperm : (std.sort compareAid collected).Perm collected :=
    StdSort.sort_perm compareAid_iff std
  obtain ⟨kept, heq, hsub, hkept⟩ := @removeInvalidRedirects_eq
    (std.sort compareAid collected) [] (std.sort compareAid collected)
    (StdSort.sort_sorted compareAid_iff std) fun d hd hmem => absurd hd hmem
  rw [List.nil_append] at heq
  have hst : st.kept = kept := st.kept_eq.trans heq
  have hiff (d : Dirent) : p d = true ↔ ¬ Invalid (std.sort compareAid collected) d := by
    rw [hp d, Invalid, Invalid]
    exact not_congr ⟨Links.Dangling.perm hperm.symm, Links.Dangling.perm hperm⟩
  have hall : ∀ d ∈ kept, p d = true := by
    intro d hd
    rw [hiff]
    refine Links.not_dangling hsub.subset (fun d hd k hk => ?_) hd
    rw [← hst] at hd ⊢
    exact st.kept_target hd hk
  rw [hst, hkept p hiff hall]
  exact hperm.filter p

end Kept

section Articles

open Classical in
/-- The articles of which an archive has entries: a redirect is left out if its redirects end at a
missing aid, but not if they go round a cycle. -/
noncomputable def keptArticles (src : ArticleSource) : List ArticleSource.Article :=
  src.articles.filter fun a =>
    ¬ Links.Dangling ArticleSource.Article.aid ArticleSource.Article.target src.articles a

theorem mem_keptArticles_iff {src : ArticleSource} {a : ArticleSource.Article} :
    a ∈ keptArticles src ↔ a ∈ src.articles ∧
      ¬ Links.Dangling ArticleSource.Article.aid ArticleSource.Article.target src.articles a := by
  simp [keptArticles]

theorem forall₂_map_eq {α β γ : Type} {R : α → β → Prop} {l : List α} {m : List β} {f : α → γ}
    {g : β → γ} (h : List.Forall₂ R l m) (hfg : ∀ a b, R a b → f a = g b) : l.map f = m.map g := by
  induction h with
  | nil => rfl
  | cons hab _ ih => rw [List.map_cons, List.map_cons, hfg _ _ hab, ih]

theorem forall₂_perm {α β : Type} {R : α → β → Prop} {l : List α} {m m' : List β}
    (h : List.Forall₂ R l m) (hm : m.Perm m') : ∃ l', l'.Perm l ∧ List.Forall₂ R l' m' := by
  obtain ⟨l', hl', hperm⟩ := List.perm_comp_forall₂ hm.symm h.flip
  exact ⟨l', hperm, hl'.flip⟩

theorem forall₂_setIndex {mimeTypes : List Bytes} {as : List ArticleSource.Article}
    {ds : List Dirent} (h : List.Forall₂ (Made mimeTypes) as ds) :
    List.Forall₂ (Made mimeTypes) as (setIndex ds) := by
  refine List.forall₂_iff_get.mpr ⟨by simpa [setIndex] using h.length_eq, fun i hi hi' => ?_⟩
  have hlen : i < ds.length := h.length_eq ▸ hi
  simpa [setIndex] using (h.get hi hlen).setIdx (UInt32.ofNat i)

/-- The entries are made of the articles kept, and sorted by their urls. -/
theorem createDirents_made {std : StdSort} {zc zc' : ZimCreator} {src : ArticleSource}
    (h : zc.createDirents std src = .ok zc') (hnew : zc.dirents = [] ∧ zc.mimeTypes = []) :
    ∃ as, as.Perm (keptArticles src) ∧ List.Forall₂ (Made zc'.mimeTypes) as zc'.dirents := by
  classical
  obtain ⟨collected, hmade, ⟨st⟩, -, -⟩ := createDirents_stages h hnew
  have hlinks : List.Forall₂
      (fun a d => ArticleSource.Article.aid a = d.aid ∧ a.target = d.target)
      src.articles collected := hmade.imp fun a d hm => ⟨hm.aid.symm, hm.target_eq⟩
  have hfilter : List.Forall₂ (Made zc'.mimeTypes) (keptArticles src)
      (collected.filter fun d => ¬ Invalid collected d) := by
    refine List.rel_filter (fun a d hm => ?_) hmade
    simp only [decide_not, Bool.not_eq_true', decide_eq_false_iff_not]
    exact not_congr (Links.dangling_iff hlinks hm.target_eq)
  have hkept : st.kept.Perm (collected.filter fun d => ¬ Invalid collected d) :=
    st.kept_perm fun d => by simp
  have hurl : (std.sort compareUrl st.kept).Perm
      (collected.filter fun d => ¬ Invalid collected d) :=
    (StdSort.sort_perm compareUrl_iff std).trans hkept
  obtain ⟨as₁, hperm₁, hmade₁⟩ := forall₂_perm hfilter hurl.symm
  have hindexed := forall₂_setIndex hmade₁
  rw [← st.indexed_eq] at hindexed
  obtain ⟨as₂, hperm₂, hmade₂⟩ := forall₂_perm hindexed
    (StdSort.sort_perm compareAid_iff std).symm
  have htranslated : List.Forall₂ (Made zc'.mimeTypes) as₂ st.translated := by
    refine List.forall₂_iff_get.mpr
      ⟨hmade₂.length_eq.trans st.translated_ok.length_eq, fun i hi hi' => ?_⟩
    have hlen := hmade₂.length_eq ▸ hi
    exact translateRedirect_made (hmade₂.get hi hlen) (st.translated_ok.get hlen hi')
  obtain ⟨as₃, hperm₃, hmade₃⟩ := forall₂_perm htranslated
    (StdSort.sort_perm compareUrl_iff std).symm
  rw [← st.dirents_eq] at hmade₃
  exact ⟨as₃, hperm₃.trans (hperm₂.trans hperm₁), hmade₃⟩

end Articles

end ZimCreator
end Zim.Writer
