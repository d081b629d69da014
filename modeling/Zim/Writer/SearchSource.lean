import Zim.Lib.Enumeration
import Zim.Reader.ErrorState
import Zim.Reader.Search

/-! `zim::writer::SearchSource` (writer/search.h, search.cpp): the articles of a search result and
the redirects to them. -/
namespace Zim.Writer
open Cxx Stateful FileImpl

/-- The results from `nextArticle` on, and `nextRedirect`, which has no file at first. -/
structure SearchSource where
  nextArticle : List SearchResult
  aids : List UInt32
  nextRedirect : Option ConstIterator

namespace SearchSource
variable (build : Build)

/-- The source behind the search of its constructor. -/
def new (results : List SearchResult) : SearchSource := ⟨results, [], none⟩

/-- `it->isRedirect() && aids.find(it->getRedirectIndex()) != aids.end()`. -/
def isWanted (aids : List UInt32) (it : ConstIterator) : M (Bool × ConstIterator) := do
  let (article, it) ← it.deref build
  if ← article.isRedirect build then
    let (article, it) ← it.deref build
    return (aids.contains (← article.getRedirectIndex build), it)
  else return (false, it)

/-- The loops over `nextRedirect`. Each turn goes on to another entry. -/
def findRedirect (aids : List UInt32) : ℕ → ConstIterator → M ConstIterator
  | 0, it => return it
  | turns + 1, it => do
    if ← it.eq (← File.endIterator) then return it
    let (hit, it) ← isWanted build aids it
    if hit then return it else findRedirect aids turns it.next

def turns : M ℕ := return (← get).getCountArticles.toNat + 1

def getNextArticle (src : SearchSource) : M (Option Article × SearchSource) := do
  match src.nextArticle with
  | [] =>
    match src.nextRedirect with
    | none => return (none, src)
    | some it =>
      if ← it.eq (← File.endIterator) then return (none, src)
      let (article, it) ← it.deref build
      let it ← findRedirect build src.aids (← turns) it.next
      return (some article, { src with nextRedirect := some it })
  | result :: rest =>
    let article := result.article
    let aids := src.aids ++ [article.getIndex]
    if rest = [] then
      let it ← findRedirect build aids (← turns) (.new 0 .urlIterator)
      return (some article, ⟨rest, aids, some it⟩)
    else return (some article, { src with nextArticle := rest, aids })

/-- The articles that are returned by calls of `getNextArticle` until it returns 0. -/
def Articles (results : List SearchResult) (f : FileImpl) : List Article → Prop :=
  Enumeration.Returns (fun p article q => getNextArticle build p.1 p.2 = .ok (article, q.1) q.2)
    (new results, f)

/-- Each entry of the archive can be read. -/
def Readable (a : Archive) : Prop :=
  ∀ idx < a.header.articleCount, ∃ d, a.dirent build idx = .ok d

/-- A redirect entry whose target is among the results. -/
def RedirectsTo (a : Archive) (results : List SearchResult) (article : Article) :
    Prop :=
  ∃ d, a.dirent build article.idx = .ok d ∧ d.isRedirect = true ∧
    ⟨⟨d.getRedirectIndex⟩⟩ ∈ results

/-- The articles are the results and the redirects to them, each of them once. -/
def EachOnce (a : Archive) (results : List SearchResult) (articles : List Article) : Prop :=
  articles.Nodup ∧ ∀ article,
    article ∈ articles ↔ ⟨article⟩ ∈ results ∨ RedirectsTo build a results article

section Redirects
variable (a : Archive) (aids : List UInt32)

/-- Whether the entry with this number is a redirect to one of the articles. -/
def qualifies (i : UInt32) : Bool :=
  match a.dirent build i with
  | .ok d => d.isRedirect && aids.contains d.getRedirectIndex
  | .error _ => false

/-- The redirects to the articles from an entry on. -/
def redirectsFrom (i : ℕ) : List Article :=
  (((List.range' i (a.header.articleCount.toNat - i)).map UInt32.ofNat).filter
    (qualifies build a aids)).map Article.mk

end Redirects

section Runs
variable {build : Build} {a : Archive} {aids : List UInt32} {it : ConstIterator}
  {redirect : Option ConstIterator}

/-- An iterator over the urls, which may have kept its article. -/
def OnUrls (it : ConstIterator) : Prop :=
  it.mode = .urlIterator ∧ (it.article = .new ∨ it.article = ⟨it.idx⟩)

theorem deref_onUrls (h : OnUrls it) :
    it.deref build = pure (⟨it.idx⟩, ⟨it.idx, ⟨it.idx⟩, .urlIterator⟩) := by
  obtain ⟨idx, article, mode⟩ := it
  obtain ⟨hmode, harticle⟩ := h
  dsimp only at hmode harticle
  obtain rfl | rfl := harticle
  · rw [hmode]
    rfl
  · rw [hmode, ConstIterator.deref]
    split <;> rfl

theorem redirectsFrom_end : redirectsFrom build a aids a.header.articleCount.toNat = [] := by
  rw [redirectsFrom, Nat.sub_self]
  rfl

theorem redirectsFrom_succ {i : UInt32} (hi : i < a.header.articleCount) :
    redirectsFrom build a aids i.toNat =
      if qualifies build a aids i then ⟨i⟩ :: redirectsFrom build a aids (i.toNat + 1)
      else redirectsFrom build a aids (i.toNat + 1) := by
  have hlt := UInt32.lt_iff_toNat_lt.mp hi
  have hrange : a.header.articleCount.toNat - i.toNat =
      a.header.articleCount.toNat - (i.toNat + 1) + 1 := by omega
  rw [redirectsFrom, hrange, List.range'_succ, List.map_cons, UInt32.ofNat_toNat,
    List.filter_cons, redirectsFrom]
  split <;> rfl

theorem eq_end_serves (it : ConstIterator) :
    Runs (Serves build a false) (do it.eq (← File.endIterator))
      (.ok (decide (a.header.articleCount ≤ it.idx))) (Serves build a false) := by
  intro f hf
  rw [Search.eq_end_run, getCountArticles, hf.header]
  exact ⟨rfl, hf⟩

theorem turns_runs : Runs (Serves build a false) turns (.ok (a.header.articleCount.toNat + 1))
    (Serves build a false) := by
  refine .get_bind fun f hf => ?_
  rw [getCountArticles, hf.header]
  exact .pure fun _ h => h

/-- Between two calls `nextRedirect` is at the next redirect or at the end. -/
structure AtRedirect (build : Build) (a : Archive) (aids : List UInt32) (it : ConstIterator) :
    Prop where
  onUrls : OnUrls it
  le : it.idx ≤ a.header.articleCount
  qualifies : it.idx < a.header.articleCount → qualifies build a aids it.idx = true

theorem AtRedirect.redirectsFrom (h : AtRedirect build a aids it) :
    redirectsFrom build a aids it.idx.toNat =
      if a.header.articleCount ≤ it.idx then []
      else ⟨it.idx⟩ :: SearchSource.redirectsFrom build a aids (it.idx.toNat + 1) := by
  split
  next hle =>
    rw [UInt32.le_antisymm h.le hle, redirectsFrom_end]
  next hlt =>
    have hlt := UInt32.not_le.mp hlt
    rw [redirectsFrom_succ hlt, if_pos (h.qualifies hlt)]

variable (hread : Readable build a)
include hread

theorem isWanted_runs (hit : OnUrls it) (hi : it.idx < a.header.articleCount) :
    Runs (Serves build a false) (isWanted build aids it)
      (.ok (qualifies build a aids it.idx, ⟨it.idx, ⟨it.idx⟩, .urlIterator⟩))
      (Serves build a false) := by
  obtain ⟨d, hd⟩ := hread it.idx hi
  have hdirent : Runs (Serves build a false) ((Article.mk it.idx).getDirent build) (.ok d)
      (Serves build a false) := by
    have hruns := @getDirent_runs build a it.idx
    rwa [hd] at hruns
  have hderef : (ConstIterator.mk it.idx ⟨it.idx⟩ .urlIterator).deref build =
      pure (⟨it.idx⟩, ⟨it.idx, ⟨it.idx⟩, .urlIterator⟩) := deref_onUrls ⟨rfl, .inr rfl⟩
  have hredirect : Runs (Serves build a false) ((Article.mk it.idx).isRedirect build)
      (.ok d.isRedirect) (Serves build a false) := hdirent.bind (.pure fun _ h => h)
  have hindex : Runs (Serves build a false) ((Article.mk it.idx).getRedirectIndex build)
      (.ok d.getRedirectIndex) (Serves build a false) := hdirent.bind (.pure fun _ h => h)
  rw [isWanted, deref_onUrls hit, qualifies, hd]
  simp only [pure_bind, hderef]
  refine hredirect.bind ?_
  cases d.isRedirect with
  | false => exact .pure fun _ h => h
  | true => exact hindex.bind (.pure fun _ h => h)

/-- The loop stops at the first redirect behind its beginning, or at the end. -/
theorem findRedirect_runs {n : ℕ} (hit : OnUrls it) (hle : it.idx ≤ a.header.articleCount)
    (hn : a.header.articleCount.toNat - it.idx.toNat < n) :
    ∃ it', AtRedirect build a aids it' ∧
      redirectsFrom build a aids it'.idx.toNat = redirectsFrom build a aids it.idx.toNat ∧
      Runs (Serves build a false) (findRedirect build aids n it) (.ok it')
        (Serves build a false) := by
  induction n generalizing it with
  | zero => omega
  | succ n ih =>
    by_cases hdone : a.header.articleCount ≤ it.idx
    · refine ⟨it, ⟨hit, hle, fun hlt => absurd hdone (UInt32.not_le.mpr hlt)⟩, rfl, ?_⟩
      rw [findRedirect, ← bind_assoc]
      refine (eq_end_serves it).bind ?_
      rw [decide_eq_true hdone, if_pos rfl]
      exact .pure fun _ h => h
    · have hlt := UInt32.not_le.mp hdone
      have hbegin (it' : ConstIterator) (h : Runs (Serves build a false)
          (if qualifies build a aids it.idx then pure ⟨it.idx, ⟨it.idx⟩, .urlIterator⟩
            else findRedirect build aids n (ConstIterator.mk it.idx ⟨it.idx⟩ .urlIterator).next)
          (.ok it') (Serves build a false)) :
          Runs (Serves build a false) (findRedirect build aids (n + 1) it) (.ok it')
            (Serves build a false) := by
        rw [findRedirect, ← bind_assoc]
        refine (eq_end_serves it).bind ?_
        rw [decide_eq_false hdone, if_neg Bool.false_ne_true]
        exact (isWanted_runs hread hit hlt).bind h
      by_cases hq : qualifies build a aids it.idx = true
      · refine ⟨⟨it.idx, ⟨it.idx⟩, .urlIterator⟩, ⟨⟨rfl, .inr rfl⟩, hle, fun _ => hq⟩, rfl, ?_⟩
        apply hbegin
        rw [if_pos hq]
        exact .pure fun _ h => h
      · have hnext := ConstIterator.toNat_next hlt
        have hltNat := UInt32.lt_iff_toNat_lt.mp hlt
        obtain ⟨it', hat, hredirects, hruns⟩ :=
          @ih (ConstIterator.mk it.idx ⟨it.idx⟩ .urlIterator).next ⟨rfl, .inl rfl⟩
            (UInt32.le_iff_toNat_le.mpr (hnext.trans_le hltNat)) (by
              simp only [ConstIterator.next, hnext]
              omega)
        refine ⟨it', hat, ?_, hbegin it' ?_⟩
        · rw [redirectsFrom_succ hlt, if_neg hq, hredirects, ConstIterator.next, hnext]
        · rw [if_neg hq]
          exact hruns

variable (build a) in
/-- The articles that are still to be returned. -/
def pending (src : SearchSource) : List Article :=
  match src.nextArticle with
  | [] => (src.nextRedirect.map fun it => redirectsFrom build a src.aids it.idx.toNat).getD []
  | results => results.map SearchResult.article ++
      redirectsFrom build a (src.aids ++ results.map fun r => r.article.idx) 0

def Ready (build : Build) (a : Archive) (src : SearchSource) : Prop :=
  src.nextArticle = [] → ∀ it, src.nextRedirect = some it → AtRedirect build a src.aids it

/-- A call in the second phase returns the redirect it is at, and goes on to the next one. -/
theorem redirect_runs (hat : AtRedirect build a aids it) (hlt : it.idx < a.header.articleCount) :
    ∃ it', AtRedirect build a aids it' ∧ redirectsFrom build a aids it'.idx.toNat =
        redirectsFrom build a aids (it.idx.toNat + 1) ∧
      Runs (Serves build a false) (getNextArticle build ⟨[], aids, some it⟩)
        (.ok (some ⟨it.idx⟩, ⟨[], aids, some it'⟩)) (Serves build a false) := by
  have hnext := ConstIterator.toNat_next hlt
  have hltNat := UInt32.lt_iff_toNat_lt.mp hlt
  obtain ⟨it', hat', hredirects, hruns⟩ := @findRedirect_runs build a aids
    (ConstIterator.mk it.idx ⟨it.idx⟩ .urlIterator).next hread
    (a.header.articleCount.toNat + 1) ⟨rfl, .inl rfl⟩
    (UInt32.le_iff_toNat_le.mpr (hnext.trans_le hltNat)) (by omega)
  refine ⟨it', hat', ?_, ?_⟩
  · rw [hredirects, ConstIterator.next, hnext]
  · rw [getNextArticle]
    simp only [deref_onUrls hat.onUrls, pure_bind]
    rw [← bind_assoc]
    refine (eq_end_serves it).bind ?_
    rw [decide_eq_false (UInt32.not_le.mpr hlt), if_neg Bool.false_ne_true]
    exact turns_runs.bind (hruns.bind (.pure fun _ h => h))

/-- The call for the last result looks for the first redirect. -/
theorem last_runs (result : SearchResult) :
    ∃ it, AtRedirect build a (aids ++ [result.article.idx]) it ∧
      redirectsFrom build a (aids ++ [result.article.idx]) it.idx.toNat =
        redirectsFrom build a (aids ++ [result.article.idx]) 0 ∧
      Runs (Serves build a false) (getNextArticle build ⟨[result], aids, redirect⟩)
        (.ok (some result.article, ⟨[], aids ++ [result.article.idx], some it⟩))
        (Serves build a false) := by
  obtain ⟨it, hat, hredirects, hruns⟩ := @findRedirect_runs build a
    (aids ++ [result.article.idx]) (.new 0 .urlIterator) hread
    (a.header.articleCount.toNat + 1) ⟨rfl, .inl rfl⟩ UInt32.zero_le (by omega)
  refine ⟨it, hat, hredirects, ?_⟩
  rw [getNextArticle]
  exact turns_runs.bind (hruns.bind (.pure fun _ h => h))

/-- A call returns the first of the articles that are still to be returned, if there is one. -/
theorem getNextArticle_runs {src : SearchSource} (hsrc : Ready build a src) :
    pending build a src = [] ∧ Runs (Serves build a false) (getNextArticle build src)
        (.ok (none, src)) (Serves build a false) ∨
      ∃ article src', pending build a src = article :: pending build a src' ∧ Ready build a src' ∧
        Runs (Serves build a false) (getNextArticle build src) (.ok (some article, src'))
          (Serves build a false) := by
  obtain ⟨results, aids, redirect⟩ := src
  match results with
  | [] =>
    cases redirect with
    | none => exact .inl ⟨rfl, .pure fun _ h => h⟩
    | some it =>
      have hat := hsrc rfl it rfl
      have hpending : pending build a ⟨[], aids, some it⟩ =
          redirectsFrom build a aids it.idx.toNat := rfl
      rw [hpending, hat.redirectsFrom]
      by_cases hdone : a.header.articleCount ≤ it.idx
      · refine .inl ⟨if_pos hdone, ?_⟩
        rw [getNextArticle]
        dsimp only
        rw [← bind_assoc]
        refine (eq_end_serves it).bind ?_
        rw [decide_eq_true hdone, if_pos rfl]
        exact .pure fun _ h => h
      · obtain ⟨it', hat', hredirects, hruns⟩ :=
          redirect_runs hread hat (UInt32.not_le.mp hdone)
        refine .inr ⟨⟨it.idx⟩, ⟨[], aids, some it'⟩, ?_, fun _ _ heq => ?_, hruns⟩
        · rw [if_neg hdone, ← hredirects]
          rfl
        · cases heq
          exact hat'
  | [result] =>
    obtain ⟨it, hat, hredirects, hruns⟩ := @last_runs build a aids redirect hread result
    refine .inr ⟨result.article, _, ?_, fun _ _ heq => ?_, hruns⟩
    · exact congrArg (result.article :: ·) hredirects.symm
    · cases heq
      exact hat
  | result :: next :: rest =>
    refine .inr ⟨result.article, ⟨next :: rest, aids ++ [result.article.idx], redirect⟩, ?_,
      fun hnil => ?_, .pure fun _ h => h⟩
    · simp [pending]
    · cases hnil

theorem returns_pending {src : SearchSource} {f : FileImpl} (hsrc : Ready build a src)
    (hf : Serves build a false f) :
    Enumeration.Returns
      (fun p article q => getNextArticle build p.1 p.2 = .ok (article, q.1) q.2) (src, f)
      (pending build a src) := by
  have hstep {src src' : SearchSource} {article : Option Article} {f : FileImpl}
      (hf : Serves build a false f) (hruns : Runs (Serves build a false)
        (getNextArticle build src) (.ok (article, src')) (Serves build a false)) :
      ∃ f', getNextArticle build src f = .ok (article, src') f' ∧ Serves build a false f' := by
    obtain ⟨hout, hstate⟩ := hruns f hf
    exact ⟨_, eq_ok_of_outcome hout, hstate⟩
  refine Enumeration.returns_of_pending
    (fun p : SearchSource × FileImpl => Ready build a p.1 ∧ Serves build a false p.2)
    (fun p => pending build a p.1) ?_ ?_ ⟨hsrc, hf⟩
  · rintro ⟨src, f⟩ ⟨hsrc, hf⟩ hnone
    obtain ⟨-, hruns⟩ | ⟨article, src', hsome, -, -⟩ := getNextArticle_runs hread hsrc
    · obtain ⟨f', hnext, -⟩ := hstep hf hruns
      exact ⟨(src, f'), hnext⟩
    · rw [hnone] at hsome
      cases hsome
  · rintro ⟨src, f⟩ article rest ⟨hsrc, hf⟩ hsome
    obtain ⟨hnone, -⟩ | ⟨article', src', heq, hsrc', hruns⟩ := getNextArticle_runs hread hsrc
    · rw [hnone] at hsome
      cases hsome
    · rw [heq] at hsome
      cases hsome
      obtain ⟨f', hnext, hf'⟩ := hstep hf hruns
      exact ⟨(src', f'), hnext, ⟨hsrc', hf'⟩, rfl⟩

end Runs

section Once
variable {build : Build} {a : Archive} {results : List SearchResult} {aids : List UInt32}

theorem qualifies_iff {i : UInt32} : qualifies build a aids i = true ↔
    ∃ d, a.dirent build i = .ok d ∧ d.isRedirect = true ∧ d.getRedirectIndex ∈ aids := by
  rw [qualifies]
  cases a.dirent build i with
  | ok d => simp
  | error e => simp

theorem redirectsTo_iff {article : Article} : RedirectsTo build a results article ↔
    qualifies build a (results.map fun r => r.article.idx) article.idx = true := by
  have hmem (i : UInt32) : ⟨⟨i⟩⟩ ∈ results ↔ i ∈ results.map fun r => r.article.idx := by
    rw [List.mem_map]
    constructor
    · exact fun h => ⟨_, h, rfl⟩
    · rintro ⟨⟨⟨j⟩⟩, h, rfl⟩
      exact h
  simp only [RedirectsTo, qualifies_iff, hmem]

theorem mem_redirectsFrom {article : Article} : article ∈ redirectsFrom build a aids 0 ↔
    qualifies build a aids article.idx = true := by
  rw [redirectsFrom, List.mem_map]
  constructor
  · rintro ⟨i, hi, rfl⟩
    exact (List.mem_filter.mp hi).2
  · intro hq
    refine ⟨article.idx, List.mem_filter.mpr ⟨?_, hq⟩, rfl⟩
    obtain ⟨d, hd, -⟩ := qualifies_iff.mp hq
    have hlt : article.idx < a.header.articleCount := by
      by_contra hle
      rw [Archive.dirent, if_pos (UInt32.not_lt.mp hle)] at hd
      cases hd
    refine List.mem_map.mpr ⟨article.idx.toNat, ?_, UInt32.ofNat_toNat⟩
    rw [List.mem_range'_1, Nat.sub_zero, Nat.zero_add]
    exact ⟨Nat.zero_le _, UInt32.lt_iff_toNat_lt.mp hlt⟩

theorem nodup_redirectsFrom : (redirectsFrom build a aids 0).Nodup := by
  refine List.Nodup.map (fun i j h => by cases h; rfl) (List.Nodup.filter _ ?_)
  refine List.Nodup.map_on (fun i hi j hj heq => ?_) List.nodup_range'
  rw [List.mem_range'_1] at hi hj
  have hcount := UInt32.toNat_lt a.header.articleCount
  have hi' : i < 2 ^ 32 := by omega
  have hj' : j < 2 ^ 32 := by omega
  have hval := congrArg UInt32.toNat heq
  rwa [UInt32.toNat_ofNat_of_lt' hi', UInt32.toNat_ofNat_of_lt' hj'] at hval

theorem pending_new (results : List SearchResult) : pending build a (new results) =
    results.map SearchResult.article ++
      redirectsFrom build a (results.map fun r => r.article.idx) 0 := by
  cases results with
  | nil =>
    refine (List.eq_nil_iff_forall_not_mem.mpr fun article h => ?_).symm
    obtain ⟨d, -, -, hmem⟩ := qualifies_iff.mp (mem_redirectsFrom.mp h)
    cases hmem
  | cons result rest => rfl

theorem ready_new (results : List SearchResult) : Ready build a (new results) :=
  fun _ _ heq => by cases heq

/-- The results in their order and then the redirects in the order of their urls. -/
theorem articles_eq (hread : Readable build a) {f : FileImpl} (hf : Serves build a false f)
    {articles : List Article} : Articles build results f articles ↔
      articles = results.map SearchResult.article ++
        redirectsFrom build a (results.map fun r => r.article.idx) 0 := by
  have hreturns := returns_pending hread (ready_new results) hf
  rw [pending_new] at hreturns
  constructor
  · intro h
    refine h.unique (fun h h' => ?_) hreturns
    obtain ⟨hvalue, hstate⟩ := EStateM.Result.ok.inj (h.symm.trans h')
    exact ⟨congrArg Prod.fst hvalue, Prod.ext (congrArg Prod.snd hvalue) hstate⟩
  · rintro rfl
    exact hreturns

section Complete
variable {it it' : ConstIterator} {f f' : FileImpl}

/-- The entries from `i` up to `j` that the archive has can be read. -/
def ReadableIn (build : Build) (a : Archive) (i j : ℕ) : Prop :=
  ∀ idx < a.header.articleCount, i ≤ idx.toNat → idx.toNat ≤ j → ∃ d, a.dirent build idx = .ok d

/-- What has been read from the archive could be read, and nothing has been lost. -/
theorem getDirent_ok {idx : UInt32} {d : Dirent} (hf : Serves build a false f)
    (h : FileImpl.getDirent build idx f = .ok d f') :
    a.dirent build idx = .ok d ∧ Serves build a false f' := by
  obtain ⟨hout, hserves⟩ := getDirent_runs f hf
  rw [h] at hout hserves
  rw [← hout] at hserves
  exact ⟨hout.symm, hserves⟩

theorem isWanted_ok (hit : OnUrls it) {hitIt : Bool × ConstIterator}
    (hf : Serves build a false f) (h : isWanted build aids it f = .ok hitIt f') :
    (∃ d, a.dirent build it.idx = .ok d) ∧ hitIt.2 = ⟨it.idx, ⟨it.idx⟩, .urlIterator⟩ ∧
      Serves build a false f' := by
  have hderef : (ConstIterator.mk it.idx ⟨it.idx⟩ .urlIterator).deref build =
      pure (⟨it.idx⟩, ⟨it.idx, ⟨it.idx⟩, .urlIterator⟩) := deref_onUrls ⟨rfl, .inr rfl⟩
  rw [isWanted, deref_onUrls hit] at h
  simp only [pure_bind, hderef] at h
  obtain ⟨redirect, f₁, hredirect, h⟩ := bind_eq_ok h
  obtain ⟨d, f₂, hdirent, hpure⟩ := bind_eq_ok hredirect
  cases hpure
  obtain ⟨hd, hserves⟩ := getDirent_ok hf hdirent
  refine ⟨⟨d, hd⟩, ?_⟩
  split at h
  · obtain ⟨target, f₃, htarget, h⟩ := bind_eq_ok h
    obtain ⟨d', f₄, hdirent', hpure⟩ := bind_eq_ok htarget
    cases hpure
    cases h
    exact ⟨rfl, (getDirent_ok hserves hdirent').2⟩
  · cases h
    exact ⟨rfl, hserves⟩

/-- Where the loop ends, all entries from its beginning on could be read. -/
theorem findRedirect_ok {n : ℕ} (hit : OnUrls it)
    (hn : a.header.articleCount.toNat - it.idx.toNat < n) (hf : Serves build a false f)
    (h : findRedirect build aids n it f = .ok it' f') :
    ReadableIn build a it.idx.toNat it'.idx.toNat ∧ OnUrls it' ∧ Serves build a false f' := by
  induction n generalizing it f with
  | zero => omega
  | succ n ih =>
    rw [findRedirect, ← bind_assoc] at h
    obtain ⟨done, f₁, hdone, h⟩ := bind_eq_ok h
    rw [Search.eq_end_run, getCountArticles, hf.header] at hdone
    cases hdone
    by_cases hend : a.header.articleCount ≤ it.idx
    · rw [decide_eq_true hend, if_pos rfl] at h
      cases h
      refine ⟨fun idx hidx hle _ => ?_, hit, hf⟩
      have hlt := UInt32.lt_iff_toNat_lt.mp hidx
      have hcount := UInt32.le_iff_toNat_le.mp hend
      omega
    · have hlt := UInt32.not_le.mp hend
      have hltNat := UInt32.lt_iff_toNat_lt.mp hlt
      have hnext := ConstIterator.toNat_next hlt
      rw [decide_eq_false hend, if_neg Bool.false_ne_true] at h
      obtain ⟨⟨wanted, it₁⟩, f₁, hwanted, h⟩ := bind_eq_ok h
      obtain ⟨⟨d, hd⟩, hit₁, hserves⟩ := isWanted_ok hit hf hwanted
      dsimp only at hit₁ h
      subst hit₁
      cases wanted with
      | true =>
        cases h
        refine ⟨fun idx _ hge hle => ⟨d, ?_⟩, ⟨rfl, .inr rfl⟩, hserves⟩
        obtain rfl : idx = it.idx := UInt32.toNat_inj.mp (Nat.le_antisymm hle hge)
        exact hd
      | false =>
        obtain ⟨hreads, hrest⟩ := ih ⟨rfl, .inl rfl⟩
          (by simp only [ConstIterator.next, hnext]; omega) hserves h
        refine ⟨fun idx hidx hge hle => ?_, hrest⟩
        by_cases heq : idx = it.idx
        · exact ⟨d, heq ▸ hd⟩
        · have hne := mt UInt32.toNat_inj.mp heq
          refine hreads idx hidx ?_ hle
          simp only [ConstIterator.next, hnext]
          omega

theorem turns_run (f : FileImpl) : turns f = .ok (f.getCountArticles.toNat + 1) f := rfl

/-- A call behind the last result has read on to the next redirect, unless it is at the end. -/
theorem redirect_ok {src : SearchSource} {article : Option Article} (hit : OnUrls it)
    (hf : Serves build a false f)
    (h : getNextArticle build ⟨[], aids, some it⟩ f = .ok (article, src) f') :
    article = none ∧ a.header.articleCount ≤ it.idx ∨
      ∃ it', article = some ⟨it.idx⟩ ∧ src = ⟨[], aids, some it'⟩ ∧ OnUrls it' ∧
        Serves build a false f' ∧ ReadableIn build a (it.idx.toNat + 1) it'.idx.toNat := by
  rw [getNextArticle] at h
  simp only [deref_onUrls hit, pure_bind] at h
  rw [← bind_assoc] at h
  obtain ⟨done, f₁, hdone, h⟩ := bind_eq_ok h
  rw [Search.eq_end_run, getCountArticles, hf.header] at hdone
  cases hdone
  by_cases hend : a.header.articleCount ≤ it.idx
  · rw [decide_eq_true hend, if_pos rfl] at h
    cases h
    exact .inl ⟨rfl, hend⟩
  · have hnext := ConstIterator.toNat_next (UInt32.not_le.mp hend)
    rw [decide_eq_false hend, if_neg Bool.false_ne_true, bind_ok (turns_run f)] at h
    obtain ⟨it', f₁, hfind, h⟩ := bind_eq_ok h
    cases h
    obtain ⟨hreads, hit', hserves⟩ := findRedirect_ok ⟨rfl, .inl rfl⟩
      (by simp only [ConstIterator.next, getCountArticles, hf.header]; omega) hf hfind
    simp only [ConstIterator.next, hnext] at hreads
    exact .inr ⟨it', rfl, rfl, hit', hserves, hreads⟩

/-- The call for the last result has read on to the first redirect. -/
theorem last_ok {src : SearchSource} {article : Option Article} {result : SearchResult}
    {redirect : Option ConstIterator} (hf : Serves build a false f)
    (h : getNextArticle build ⟨[result], aids, redirect⟩ f = .ok (article, src) f') :
    ∃ it, article = some result.article ∧ src = ⟨[], aids ++ [result.article.idx], some it⟩ ∧
      OnUrls it ∧ Serves build a false f' ∧ ReadableIn build a 0 it.idx.toNat := by
  rw [getNextArticle] at h
  simp only [if_true, bind_ok (turns_run f)] at h
  obtain ⟨it, f₁, hfind, h⟩ := bind_eq_ok h
  cases h
  obtain ⟨hreads, hit, hserves⟩ := findRedirect_ok ⟨rfl, .inl rfl⟩
    (by simp only [getCountArticles, hf.header]; omega) hf hfind
  exact ⟨it, rfl, rfl, hit, hserves, hreads⟩

theorem ReadableIn.trans {i j k : ℕ} (h : ReadableIn build a i j)
    (h' : ReadableIn build a (j + 1) k) : ReadableIn build a i k := by
  intro idx hidx hge hle
  by_cases hj : idx.toNat ≤ j
  · exact h idx hidx hge hj
  · exact h' idx hidx (Nat.lt_of_not_le hj) hle

variable {articles : List Article}

/-- Behind the last result, an enumeration reads all entries behind the current one. -/
theorem readable_behind {s : SearchSource × FileImpl} (h : Enumeration.Returns
      (fun p article q => getNextArticle build p.1 p.2 = .ok (article, q.1) q.2) s articles)
    (hs : s = (⟨[], aids, some it⟩, f)) (hit : OnUrls it) (hf : Serves build a false f) :
    ReadableIn build a (it.idx.toNat + 1) a.header.articleCount.toNat := by
  induction h generalizing it f with
  | last hnext =>
    subst hs
    obtain ⟨-, hend⟩ | ⟨it', hsome, -⟩ := redirect_ok hit hf hnext
    · intro idx hidx hge
      have hlt := UInt32.lt_iff_toNat_lt.mp hidx
      have hcount := UInt32.le_iff_toNat_le.mp hend
      omega
    · cases hsome
  | more hnext rest ih =>
    subst hs
    obtain ⟨hnone, -⟩ | ⟨it', -, hsrc, hit', hserves, hreads⟩ := redirect_ok hit hf hnext
    · cases hnone
    · exact hreads.trans (ih (Prod.ext hsrc rfl) hit' hserves)

/-- An enumeration of any results at all reads every entry. -/
theorem readable_of_returns {s : SearchSource × FileImpl} (h : Enumeration.Returns
      (fun p article q => getNextArticle build p.1 p.2 = .ok (article, q.1) q.2) s articles)
    {redirect : Option ConstIterator} (hs : s = (⟨results, aids, redirect⟩, f))
    (hne : results ≠ []) (hf : Serves build a false f) : Readable build a := by
  induction h generalizing results aids redirect f with
  | last hnext =>
    subst hs
    match results with
    | [] => exact absurd rfl hne
    | [result] =>
      obtain ⟨it, hsome, -⟩ := last_ok hf hnext
      cases hsome
    | result :: next :: results => cases hnext
  | more hnext rest ih =>
    subst hs
    match results with
    | [] => exact absurd rfl hne
    | [result] =>
      obtain ⟨it, -, hsrc, hit, hserves, hreads⟩ := last_ok hf hnext
      have hall := hreads.trans (readable_behind rest (Prod.ext hsrc rfl) hit hserves)
      exact fun idx hidx => hall idx hidx (Nat.zero_le _) (UInt32.lt_iff_toNat_lt.mp hidx).le
    | result :: next :: results =>
      have hrun : getNextArticle build ⟨result :: next :: results, aids, redirect⟩ f =
          .ok (some result.article, ⟨next :: results, aids ++ [result.article.idx], redirect⟩) f :=
        rfl
      obtain ⟨hpair, hfile⟩ := EStateM.Result.ok.inj (hrun.symm.trans hnext)
      exact ih (Prod.ext (congrArg Prod.snd hpair).symm hfile.symm) (List.cons_ne_nil _ _) hf

end Complete

/-- Where all entries can be read, the articles are as they should be unless a result is itself a
redirect to a result. -/
theorem articles_once_readable (hread : Readable build a) {f : FileImpl}
    (hf : Serves build a false f) (hdistinct : results.Nodup) :
    (∃ articles, Articles build results f articles ∧ EachOnce build a results articles) ↔
      ∀ result ∈ results, ¬ RedirectsTo build a results result.article := by
  have hmem (article : Article) : ⟨article⟩ ∈ results ↔
      article ∈ results.map SearchResult.article := by
    rw [List.mem_map]
    exact ⟨fun h => ⟨_, h, rfl⟩, fun ⟨_, h, heq⟩ => heq ▸ h⟩
  have honce : (results.map SearchResult.article).Nodup :=
    hdistinct.map fun r s h => by cases r; cases s; exact congrArg SearchResult.mk h
  have hredirects (article : Article) : article ∈ redirectsFrom build a
      (results.map fun r => r.article.idx) 0 ↔ RedirectsTo build a results article :=
    mem_redirectsFrom.trans redirectsTo_iff.symm
  simp only [articles_eq hread hf, exists_eq_left]
  constructor
  · rintro ⟨hnodup, -⟩ result hresult htwice
    exact (List.nodup_append'.mp hnodup).2.2 ((hmem _).mp hresult) ((hredirects _).mpr htwice)
  · intro hnone
    refine ⟨List.nodup_append'.mpr ⟨honce, nodup_redirectsFrom, ?_⟩, fun article => ?_⟩
    · intro article hresult hredirect
      exact hnone _ ((hmem _).mpr hresult) ((hredirects _).mp hredirect)
    · rw [List.mem_append, hmem, hredirects]

/-- A result that is itself a redirect to a result is returned twice, as nothing compares the two
phases. An entry that cannot be read makes a call throw, where there is any result. -/
theorem articles_once_iff {f : FileImpl} (hf : Serves build a false f)
    (hdistinct : results.Nodup) :
    (∃ articles, Articles build results f articles ∧ EachOnce build a results articles) ↔
      results = [] ∨
        Readable build a ∧ ∀ result ∈ results, ¬ RedirectsTo build a results result.article := by
  by_cases hnil : results = []
  · subst hnil
    have hreturns : Articles build [] f [] := .last (t := (new [], f)) rfl
    refine iff_of_true ⟨[], hreturns, List.nodup_nil, fun article => ?_⟩ (.inl rfl)
    refine iff_of_false List.not_mem_nil ?_
    rintro (hresult | ⟨d, -, -, hresult⟩)
    · cases hresult
    · cases hresult
  · rw [or_iff_right hnil]
    by_cases hread : Readable build a
    · rw [articles_once_readable hread hf hdistinct, and_iff_right hread]
    · refine iff_of_false ?_ fun h => hread h.1
      rintro ⟨articles, harticles, -⟩
      exact hread (readable_of_returns harticles rfl hnil hf)

section Twice

/-- An archive with an article and a redirect to it. -/
def articleEntry : Zim.Dirent := { Zim.Dirent.new with ns := 65, url := [97] }
def redirectEntry : Zim.Dirent := { Zim.Dirent.new.setRedirect 0 with ns := 65, url := [98] }

def redirectArchive : Bytes :=
  Fileheader.write .little
    { Fileheader.default with
      articleCount := 2, mimeListPos := 80, urlPtrPos := 81, titleIdxPos := 97,
      clusterPtrPos := 139, checksumPos := 139 } ++
  [0] ++ LittleEndian.encode 8 105 ++ LittleEndian.encode 8 124 ++ LittleEndian.encode 4 0 ++
  LittleEndian.encode 4 1 ++ articleEntry.write .little ++ redirectEntry.write .little

theorem redirectArchive_opens : ∃ f, FileImpl.new .noCodecs redirectArchive 2 2 = .ok f ∧
    f.header.articleCount = 2 ∧
    (Archive.mk redirectArchive f.header f.mimeTypes).dirent .noCodecs 0 = .ok articleEntry ∧
    (Archive.mk redirectArchive f.header f.mimeTypes).dirent .noCodecs 1 = .ok redirectEntry := by
  have hcheck : Fallible.passes (FileImpl.new .noCodecs redirectArchive 2 2) (fun f =>
      f.header.articleCount = 2 &&
        (Archive.mk redirectArchive f.header f.mimeTypes).dirent .noCodecs 0 = .ok articleEntry &&
        (Archive.mk redirectArchive f.header f.mimeTypes).dirent .noCodecs 1 =
          .ok redirectEntry) = true := by decide +kernel
  obtain ⟨f, hnew, hf⟩ := Fallible.exists_of_passes hcheck
  simp only [Bool.and_eq_true, decide_eq_true_eq, and_assoc] at hf
  exact ⟨f, hnew, hf⟩

theorem redirectArchive_readable {f : FileImpl} (hcount : f.header.articleCount = 2)
    (h0 : (Archive.mk redirectArchive f.header f.mimeTypes).dirent .noCodecs 0 = .ok articleEntry)
    (h1 : (Archive.mk redirectArchive f.header f.mimeTypes).dirent .noCodecs 1 =
      .ok redirectEntry) :
    Readable .noCodecs ⟨redirectArchive, f.header, f.mimeTypes⟩ := by
  intro idx hidx
  simp only [hcount] at hidx
  have hcases : idx = 0 ∨ idx = 1 := by
    have hlt := UInt32.lt_iff_toNat_lt.mp hidx
    rw [← UInt32.toNat_inj, ← UInt32.toNat_inj]
    simp only [UInt32.reduceToNat] at hlt ⊢
    omega
  obtain rfl | rfl := hcases
  · exact ⟨_, h0⟩
  · exact ⟨_, h1⟩

theorem articles_once_iff_article : ∃ f, FileImpl.new .noCodecs redirectArchive 2 2 = .ok f ∧
    ((∃ articles, Articles .noCodecs [⟨⟨0⟩⟩] f articles ∧
        EachOnce .noCodecs ⟨redirectArchive, f.header, f.mimeTypes⟩ [⟨⟨0⟩⟩] articles) ↔
      [SearchResult.mk ⟨0⟩] = [] ∨
        Readable .noCodecs ⟨redirectArchive, f.header, f.mimeTypes⟩ ∧
          ∀ result ∈ [SearchResult.mk ⟨0⟩], ¬ RedirectsTo .noCodecs
            ⟨redirectArchive, f.header, f.mimeTypes⟩ [⟨⟨0⟩⟩] result.article) := by
  obtain ⟨f, hnew, -⟩ := redirectArchive_opens
  exact ⟨f, hnew, articles_once_iff (new_serves hnew) (List.nodup_singleton _)⟩

/-- With both entries among the results the redirect is returned twice. -/
theorem not_articles_once : ∃ f, FileImpl.new .noCodecs redirectArchive 2 2 = .ok f ∧
    ¬ ∃ articles, Articles .noCodecs [⟨⟨0⟩⟩, ⟨⟨1⟩⟩] f articles ∧
      EachOnce .noCodecs ⟨redirectArchive, f.header, f.mimeTypes⟩ [⟨⟨0⟩⟩, ⟨⟨1⟩⟩] articles := by
  obtain ⟨f, hnew, hcount, h0, h1⟩ := redirectArchive_opens
  refine ⟨f, hnew, ?_⟩
  rintro ⟨articles, harticles, hnodup, -⟩
  rw [articles_eq (redirectArchive_readable hcount h0 h1) (new_serves hnew)] at harticles
  rw [harticles] at hnodup
  have htwice : ⟨1⟩ ∈ redirectsFrom .noCodecs ⟨redirectArchive, f.header, f.mimeTypes⟩ [0, 1] 0 :=
    mem_redirectsFrom.mpr (qualifies_iff.mpr ⟨redirectEntry, h1, by decide, by decide⟩)
  exact (List.nodup_append'.mp hnodup).2.2 (by decide) htwice

end Twice

end Once

end SearchSource
end Zim.Writer
