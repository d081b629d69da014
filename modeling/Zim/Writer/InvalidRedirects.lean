import Zim.Writer.Dirents

/-! What the single pass of `createDirents` over the redirects leaves, and when the translation of
their aids throws. -/
namespace Zim.Writer
open Cxx
namespace ZimCreator

/-- Every redirect among the entries refers to one of them. -/
def NoneMissing (ds : List Dirent) : Prop :=
  ∀ d ∈ ds, d.isRedirect = true → ∃ e ∈ ds, e.aid = d.redirectAid

section Pass
variable {all done ds : List Dirent} {d e : Dirent}

theorem target_eq_some {k : Bytes} (h : d.target = some k) :
    d.isRedirect = true ∧ d.redirectAid = k := by
  unfold Dirent.target at h
  split at h
  next hd => exact ⟨hd, Option.some.inj h⟩
  next => cases h

/-- A redirect is passed over if the search finds its target. -/
theorem removeInvalidRedirects_keep (h : d.isRedirect = true →
    binarySearch (done ++ d :: ds) (Dirent.new d.redirectAid) compareAid = true) :
    removeInvalidRedirects done (d :: ds) = removeInvalidRedirects (done ++ [d]) ds := by
  rw [removeInvalidRedirects, if_neg]
  intro hremove
  simp only [Bool.and_eq_true, Bool.not_eq_true'] at hremove
  rw [h hremove.1] at hremove
  cases hremove.2

theorem sorted_aid_tail {d : Dirent} (h : (done ++ d :: ds).Pairwise fun d e => d.aid ≤ e.aid) :
    (done ++ ds).Pairwise fun d e => d.aid ≤ e.aid :=
  h.sublist ((List.sublist_cons_self d ds).append_left done)

/-- What the loop has passed over stays. -/
theorem mem_removeInvalidRedirects_done (hd : d ∈ done) : d ∈ removeInvalidRedirects done ds := by
  induction ds generalizing done with
  | nil => exact hd
  | cons e ds ih =>
    unfold removeInvalidRedirects
    split
    · exact ih hd
    · exact ih (List.mem_append_left _ hd)

/-- A redirect stays if its target is not before it. -/
theorem mem_removeInvalidRedirects {pre post : List Dirent}
    (hsorted : (done ++ (pre ++ d :: post)).Pairwise fun d e => d.aid ≤ e.aid)
    (he : e ∈ d :: post) (haid : e.aid = d.redirectAid) :
    d ∈ removeInvalidRedirects done (pre ++ d :: post) := by
  induction pre generalizing done with
  | nil =>
    have hfound : binarySearch (done ++ d :: post) (Dirent.new d.redirectAid) compareAid = true :=
      (binarySearch_iff compareAid_iff hsorted).mpr ⟨e, List.mem_append_right _ he, haid⟩
    rw [List.nil_append, removeInvalidRedirects_keep fun _ => hfound]
    exact mem_removeInvalidRedirects_done (List.mem_append_right _ List.mem_cons_self)
  | cons b pre ih =>
    rw [List.cons_append] at hsorted ⊢
    unfold removeInvalidRedirects
    split
    · exact ih (sorted_aid_tail hsorted)
    · apply ih
      rw [List.append_assoc]
      exact hsorted

/-- If every invalid redirect has its target before it, the pass removes them all. -/
theorem removeInvalidRedirects_valid
    (hsorted : (done ++ ds).Pairwise fun d e => d.aid ≤ e.aid) (hall : done ++ ds ⊆ all)
    (hdone : ∀ d ∈ done, ¬ Invalid all d)
    (hbefore : ∀ d ∈ ds, Invalid all d → ∀ e ∈ all, d.target = some e.aid → e.aid < d.aid) :
    ∀ d ∈ removeInvalidRedirects done ds, ¬ Invalid all d := by
  induction ds generalizing done with
  | nil => exact hdone
  | cons d ds ih =>
    have hbefore' := fun e he => hbefore e (List.mem_cons_of_mem _ he)
    unfold removeInvalidRedirects
    split
    next =>
      refine ih (sorted_aid_tail hsorted) (fun e he => hall ?_) hdone hbefore'
      exact ((List.sublist_cons_self d ds).append_left done).subset he
    next hkeep =>
      have hmove : done ++ [d] ++ ds = done ++ d :: ds := by simp
      refine ih (hmove ▸ hsorted) (hmove ▸ hall) (fun e he => ?_) hbefore'
      rcases List.mem_append.mp he with he | he
      · exact hdone e he
      · rw [List.mem_singleton.mp he]
        intro hinvalid
        -- the search has found a target of `d`, which is invalid too
        obtain ⟨htarget, hchain⟩ := id hinvalid
        obtain ⟨hr, rfl⟩ := target_eq_some htarget
        have hfound : binarySearch (done ++ d :: ds) (Dirent.new d.redirectAid) compareAid =
            true := by simpa [hr] using hkeep
        obtain ⟨t, ht, haid⟩ := (binarySearch_iff compareAid_iff hsorted).mp hfound
        replace haid : t.aid = d.redirectAid := haid
        have htinvalid := hchain t (hall ht) haid
        rcases List.mem_append.mp ht with ht' | ht'
        · exact hdone t ht' htinvalid
        · have hlt := hbefore d List.mem_cons_self hinvalid t (hall ht) (haid ▸ htarget)
          have hle : d.aid ≤ t.aid := by
            rcases List.mem_cons.mp ht' with rfl | ht'
            · exact le_rfl
            · exact List.rel_of_pairwise_cons (List.pairwise_append.mp hsorted).2.1 ht'
          exact absurd hlt (not_lt.mpr hle)

end Pass

section Clean
variable {std : StdSort} {collected : List Dirent}

/-- Every redirect whose redirects end at a missing aid, and which has a target itself, comes behind
its target. -/
def Descending (ds : List Dirent) : Prop :=
  ∀ d ∈ ds, Invalid ds d → ∀ e ∈ ds, d.target = some e.aid → e.aid < d.aid

theorem removeInvalidRedirects_subset {done ds : List Dirent} :
    removeInvalidRedirects done ds ⊆ done ++ ds := by
  induction ds generalizing done with
  | nil => exact List.subset_append_left done []
  | cons d ds ih =>
    unfold removeInvalidRedirects
    split
    · exact fun e he => ((List.sublist_cons_self d ds).append_left done).subset (ih he)
    · intro e he
      simpa using ih he

theorem Invalid.perm {ds ds' : List Dirent} {d : Dirent} (h : ds.Perm ds') :
    Invalid ds d ↔ Invalid ds' d :=
  ⟨Links.Dangling.perm h, Links.Dangling.perm h.symm⟩

theorem Descending.perm {ds ds' : List Dirent} (h : ds.Perm ds') (hds : Descending ds) :
    Descending ds' := by
  intro d hd hinvalid e he
  exact hds d (h.mem_iff.mpr hd) ((Invalid.perm h).mpr hinvalid) e (h.mem_iff.mpr he)

/-- The pass leaves no redirect without its target exactly if every invalid redirect comes behind
its target. -/
theorem noneMissing_iff (hstrict : collected.Pairwise fun d e => d.aid < e.aid) :
    NoneMissing (removeInvalidRedirects [] collected) ↔ Descending collected := by
  classical
  have hsorted : collected.Pairwise fun d e => d.aid ≤ e.aid := hstrict.imp le_of_lt
  have hsubset : removeInvalidRedirects [] collected ⊆ collected := removeInvalidRedirects_subset
  constructor
  · intro hclean d hd hinvalid e he htarget
    obtain ⟨-, haid⟩ := target_eq_some htarget
    by_contra hnot
    -- `d` stays, because its target is not before it
    have hkept : d ∈ removeInvalidRedirects [] collected := by
      obtain ⟨pre, post, rfl⟩ := List.append_of_mem hd
      refine mem_removeInvalidRedirects hsorted ?_ haid.symm
      rcases List.mem_append.mp he with he' | he'
      · have hlt := (List.pairwise_append.mp hstrict).2.2 e he' d List.mem_cons_self
        exact absurd hlt hnot
      · exact he'
    refine Links.not_dangling hsubset (fun d hd k hk => ?_) hkept hinvalid
    obtain ⟨hr, rfl⟩ := target_eq_some hk
    exact hclean d hd hr
  · intro hdesc d hd hr
    have hvalid := @removeInvalidRedirects_valid collected [] collected hsorted
      (List.Subset.refl _) (fun e he => absurd he List.not_mem_nil) hdesc
    obtain ⟨kept, heq, -, hkept⟩ := @removeInvalidRedirects_eq collected [] collected hsorted
      fun d hd hmem => absurd hd hmem
    rw [List.nil_append] at heq
    have hfilter := hkept (fun d => ¬ Invalid collected d) (fun d => by simp) fun e he => by
      simpa using hvalid e (heq ▸ he)
    have hresult : ∀ e, e ∈ removeInvalidRedirects [] collected ↔
        e ∈ collected ∧ ¬ Invalid collected e := fun e => by
      rw [heq, hfilter, List.mem_filter, decide_eq_true_eq]
    by_contra hnone
    refine hvalid d hd (.intro (if_pos hr) fun e he haid => ?_)
    by_contra hnot
    exact hnone ⟨e, (hresult e).mpr ⟨he, hnot⟩, haid⟩

end Clean

section Translate
variable {std : StdSort} {kept ds : List Dirent} {d : Dirent}

theorem translateRedirect_exists (hsorted : ds.Pairwise fun d e => d.aid ≤ e.aid)
    (h : d.isRedirect = true → ∃ e ∈ ds, e.aid = d.redirectAid) :
    ∃ d', translateRedirect ds d = .ok d' := by
  unfold translateRedirect
  by_cases hr : d.isRedirect = true
  · obtain ⟨e, he, haid⟩ := h hr
    have hfound : binarySearch ds (Dirent.new d.redirectAid) compareAid = true :=
      (binarySearch_iff compareAid_iff hsorted).mpr ⟨e, he, haid⟩
    obtain ⟨t, ht, haid'⟩ := lowerBound_hit compareAid_iff hfound
    rw [if_pos hr, ht]
    exact ⟨d.setRedirect t.idx, if_pos haid'⟩
  · rw [if_neg hr]
    exact ⟨d, rfl⟩

/-- The aids of the redirects are translated if none of their targets is missing. -/
theorem translate_exists (h : NoneMissing kept) :
    ∃ translated, (std.sort compareAid (setIndex (std.sort compareUrl kept))).mapM
      (translateRedirect (std.sort compareAid (setIndex (std.sort compareUrl kept)))) =
        .ok translated := by
  refine Fallible.mapM_exists fun d hd => ?_
  obtain ⟨x, hx, i, rfl⟩ := exists_of_mem_indexed hd
  refine translateRedirect_exists (StdSort.sort_sorted compareAid_iff std) fun hr => ?_
  obtain ⟨e, he, haid⟩ := h x hx hr
  obtain ⟨j, hj⟩ := @exists_mem_indexed std kept e he
  exact ⟨e.setIdx j, hj, haid⟩

end Translate

end ZimCreator

/-- Every redirect whose redirects end at a missing aid has a greater aid than its target, if the
source has this one. Redirects that go round a cycle do not end. -/
def ArticleSource.Descending (src : ArticleSource) : Prop :=
  ∀ a ∈ src.articles,
    Links.Dangling ArticleSource.Article.aid ArticleSource.Article.target src.articles a →
      ∀ b ∈ src.articles, a.target = some b.aid → b.aid < a.aid

namespace ZimCreator

section Source
variable {std : StdSort} {src : ArticleSource} {zc zc₁ : ZimCreator}

theorem descending_iff {mimeTypes : List Bytes} {ds : List Dirent}
    (h : List.Forall₂ (Made mimeTypes) src.articles ds) : src.Descending ↔ Descending ds := by
  have hlinks : List.Forall₂
      (fun a d => ArticleSource.Article.aid a = d.aid ∧ a.target = d.target)
      src.articles ds := h.imp fun a d hm => ⟨hm.aid.symm, hm.target_eq⟩
  constructor
  · intro hdesc d hd hinvalid e he htarget
    obtain ⟨i, hi, rfl⟩ := List.getElem_of_mem hd
    obtain ⟨j, hj, rfl⟩ := List.getElem_of_mem he
    have hi' := h.length_eq.symm ▸ hi
    have hj' := h.length_eq.symm ▸ hj
    have hmi := h.get hi' hi
    have hmj := h.get hj' hj
    have hdangling := (Links.dangling_iff hlinks hmi.target_eq).mpr hinvalid
    have hlt := hdesc _ (List.getElem_mem hi') hdangling _ (List.getElem_mem hj')
      (hmi.target_eq.trans (htarget.trans (congrArg some hmj.aid)))
    rw [show ds[i].aid = _ from hmi.aid, show ds[j].aid = _ from hmj.aid]
    exact hlt
  · intro hdesc a ha hdangling b hb htarget
    obtain ⟨i, hi, rfl⟩ := List.getElem_of_mem ha
    obtain ⟨j, hj, rfl⟩ := List.getElem_of_mem hb
    have hi' := h.length_eq ▸ hi
    have hj' := h.length_eq ▸ hj
    have hmi := h.get hi hi'
    have hmj := h.get hj hj'
    have hinvalid := (Links.dangling_iff hlinks hmi.target_eq).mp hdangling
    have hlt := hdesc _ (List.getElem_mem hi') hinvalid _ (List.getElem_mem hj')
      (hmi.target_eq.symm.trans (htarget.trans (congrArg some hmj.aid.symm)))
    rw [show ds[i].aid = _ from hmi.aid, show ds[j].aid = _ from hmj.aid] at hlt
    exact hlt

/-- Without a missing target the entries are created once they are collected. -/
theorem createDirents_exists (hcollect : src.articles.foldlM addArticle zc = .ok zc₁)
    (hclean : NoneMissing (removeInvalidRedirects [] (std.sort compareAid zc₁.dirents))) :
    ∃ zc', zc.createDirents std src = .ok zc' := by
  obtain ⟨translated, htranslate⟩ := @translate_exists std _ hclean
  refine ⟨{ zc₁ with dirents := std.sort compareUrl translated }, ?_⟩
  unfold createDirents
  refine Fallible.bind_eq_ok.mpr ⟨zc₁, hcollect, ?_⟩
  exact Fallible.bind_eq_ok.mpr ⟨translated, htranslate, rfl⟩

/-- Once the entries are collected, the pass leaves no redirect without its target, and no aid
fails to be translated, exactly if every redirect whose redirects end at a missing aid has a greater
aid than its target, where it has one. -/
theorem createDirents_noneMissing_iff (haids : src.DistinctAids)
    (hnew : zc.dirents = [] ∧ zc.mimeTypes = [])
    (hcollect : src.articles.foldlM addArticle zc = .ok zc₁) :
    (NoneMissing (removeInvalidRedirects [] (std.sort compareAid zc₁.dirents)) ∧
      ∀ aid, zc.createDirents std src ≠ .error (.redirectAid aid)) ↔ src.Descending := by
  obtain ⟨ds, more, hzc₁, hmade, -⟩ := addArticles_made hcollect (by simp [hnew])
  have hdirents : zc₁.dirents = ds := by rw [hzc₁, hnew.1, List.nil_append]
  have hperm : (std.sort compareAid ds).Perm ds := StdSort.sort_perm compareAid_iff std
  have hstrict : (std.sort compareAid ds).Pairwise fun d e => d.aid < e.aid := by
    apply pairwise_lt (StdSort.sort_sorted compareAid_iff std)
    have haids' : src.articles.map (fun a => a.aid) = ds.map fun d => d.aid :=
      forall₂_map_eq hmade fun a d hm => hm.aid.symm
    rw [(hperm.map _).nodup_iff, ← haids']
    exact haids
  have hiff := noneMissing_iff hstrict
  have hdesc : Descending (std.sort compareAid ds) ↔ src.Descending := by
    rw [descending_iff hmade]
    exact ⟨Descending.perm hperm, Descending.perm hperm.symm⟩
  rw [hdesc, ← hdirents] at hiff
  constructor
  · exact fun h => hiff.mp h.1
  · intro h
    refine ⟨hiff.mpr h, fun aid herror => ?_⟩
    obtain ⟨zc', hok⟩ := createDirents_exists hcollect (hiff.mpr h)
    rw [hok] at herror
    cases herror

end Source

section Examples

/-- A redirect from one aid to another. -/
def redirectArticle (aid target : Bytes) : ArticleSource.Article :=
  ⟨aid, 65, aid, [], true, [], false, target, []⟩

/-- A source of redirects. -/
def redirectSource (redirects : List (Bytes × Bytes)) : ArticleSource where
  articles := redirects.map fun r => redirectArticle r.1 r.2
  getData _ := ⟨[], noBytes_small⟩
  uuid := zeroUuid
  mainPage := []
  layoutPage := []

/-- A cycle, and a chain that leads nowhere in the order in which it is removed. -/
theorem createDirents_noneMissing_chain :
    ∃ zc₁, (redirectSource [([1], [3]), ([3], [1]), ([2], [9]), ([4], [2])]).articles.foldlM
        addArticle (new 1 .zimcompNone) = .ok zc₁ ∧
      NoneMissing (removeInvalidRedirects [] (StdSort.insertion.sort compareAid zc₁.dirents)) ∧
      ∀ aid, (new 1 .zimcompNone).createDirents .insertion
        (redirectSource [([1], [3]), ([3], [1]), ([2], [9]), ([4], [2])]) ≠
          .error (.redirectAid aid) := by
  refine ⟨_, rfl, (createDirents_noneMissing_iff ?_ ⟨rfl, rfl⟩ rfl).mpr ?_⟩
  · unfold ArticleSource.DistinctAids
    decide
  · intro a ha hdangling
    have hpairs : ∀ a ∈ [redirectArticle [2] [9], redirectArticle [4] [2]],
        ∀ b ∈ (redirectSource [([1], [3]), ([3], [1]), ([2], [9]), ([4], [2])]).articles,
          a.target = some b.aid → b.aid < a.aid := by decide
    rcases List.mem_append (s := [redirectArticle [1] [3], redirectArticle [3] [1]]).mp ha with
      hcycle | hchain
    · refine absurd hdangling (Links.not_dangling (List.take_subset 2 _) ?_ hcycle)
      decide
    · exact hpairs a hchain

/-- The first redirect of a chain that leads nowhere is checked before the second is removed. -/
theorem not_createDirents_noneMissing :
    ¬ ∀ (std : StdSort) (src : ArticleSource) (zc zc₁ : ZimCreator), src.DistinctAids →
      zc.dirents = [] ∧ zc.mimeTypes = [] → src.articles.foldlM addArticle zc = .ok zc₁ →
      NoneMissing (removeInvalidRedirects [] (std.sort compareAid zc₁.dirents)) ∧
        ∀ aid, zc.createDirents std src ≠ .error (.redirectAid aid) := by
  intro hall
  obtain ⟨-, hnever⟩ := hall .insertion (redirectSource [([1], [2]), ([2], [9])])
    (new 1 .zimcompNone) _ (by unfold ArticleSource.DistinctAids; decide) ⟨rfl, rfl⟩ rfl
  apply hnever [2]
  have herror : (match (new 1 .zimcompNone).createDirents .insertion
      (redirectSource [([1], [2]), ([2], [9])]) with
    | .error e => decide (e = .redirectAid [2])
    | .ok _ => false) = true := by decide +kernel
  cases hcreate : (new 1 .zimcompNone).createDirents .insertion
      (redirectSource [([1], [2]), ([2], [9])]) with
  | error e =>
    rw [hcreate] at herror
    rw [of_decide_eq_true herror]
  | ok zc =>
    rw [hcreate] at herror
    cases herror

end Examples
end ZimCreator
end Zim.Writer
