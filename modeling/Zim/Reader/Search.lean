import Zim.Lib.Scan
import Zim.Reader.Article

/-! Searches for titles (search.h, search.cpp, fileiterator.h). -/
namespace Zim
open Cxx Stateful FileImpl

/-- A result of a search, without the words and the priority that only a full text search gives. -/
structure SearchResult where
  article : Article
  deriving DecidableEq

inductive ConstIterator.Mode where
  | urlIterator
  | articleIterator
  deriving DecidableEq

/-- `File::const_iterator` over the file that is the state. -/
structure ConstIterator where
  idx : UInt32
  /-- The article at `idx` once it has been asked for. -/
  article : Article
  mode : ConstIterator.Mode

namespace File
variable (build : Build)

/-- `getArticleByTitle(idx)`. -/
def getArticleByTitle (idx : UInt32) : M Article := return ⟨← getIndexByTitle build idx⟩

end File

namespace ConstIterator
variable (build : Build) (it : ConstIterator)

def new (idx : UInt32) (mode : Mode) : ConstIterator := ⟨idx, .new, mode⟩

def isEnd : M Bool := return (← get).getCountArticles ≤ it.idx

/-- `operator==` for two iterators of one file. -/
def eq (other : ConstIterator) : M Bool := do
  return (← it.isEnd) && (← other.isEnd) || it.idx = other.idx

/-- `operator++()`. -/
def next : ConstIterator := { it with idx := it.idx + 1, article := .new }

/-- `operator*`, with the iterator that has kept the article. -/
def deref : M (Article × ConstIterator) := do
  if it.article.good then return (it.article, it)
  else
    let article ← match it.mode with
      | .urlIterator => pure ⟨it.idx⟩
      | .articleIterator => File.getArticleByTitle build it.idx
    return (article, { it with article })

/-- A position before the end can be increased. -/
theorem toNat_next {i count : UInt32} (hi : i < count) : (i + 1).toNat = i.toNat + 1 := by
  have hlt := UInt32.lt_iff_toNat_lt.mp hi
  have hcount := UInt32.toNat_lt count
  rw [UInt32.toNat_add, UInt32.toNat_one]
  omega

end ConstIterator

namespace File
variable (build : Build)

/-- `end()`. -/
def endIterator : M ConstIterator := return .new (← get).getCountArticles .urlIterator

/-- `findByTitle`. For an empty namespace the source gives `end()`, which is an iterator of the
other mode, but at the end as well. -/
def findByTitle (ns : UInt8) (title : Bytes) : M ConstIterator := do
  return .new (← findxByTitle build ns title).2 .articleIterator

end File

namespace Search
variable (build : Build)

/-- The loop of `find`, `outside` being its test of a title. It goes on as long as it adds results,
up to `n` of them. -/
def findLoop (ns : UInt8) (outside : Bytes → Bool) :
    ℕ → ConstIterator → List SearchResult → M (List SearchResult)
  | 0, _, results => return results
  | n + 1, pos, results => do
    if ← pos.eq (← File.endIterator) then return results
    let (article, pos) ← pos.deref build
    if ns ≠ (← article.getNamespace build) then return results
    let (article, pos) ← pos.deref build
    if outside (← article.getTitle build) then return results
    let (article, pos) ← pos.deref build
    findLoop ns outside n pos.next (results ++ [⟨article⟩])

/-- `find(results, ns, praefix, limit)`. -/
def find (results : List SearchResult) (ns : UInt8) (praefix : Bytes) (limit : UInt32) :
    M (List SearchResult) := do
  let pos ← File.findByTitle build ns praefix
  findLoop build ns (fun title => stringCompare (title.take praefix.length) praefix = .gt)
    (limit.toNat - results.length) pos results

/-- `find(results, ns, begin, end, limit)`. -/
def findRange (results : List SearchResult) (ns : UInt8) (first last : Bytes) (limit : UInt32) :
    M (List SearchResult) := do
  let pos ← File.findByTitle build ns first
  findLoop build ns (fun title => stringCompare title last = .gt)
    (limit.toNat - results.length) pos results

section Runs
variable {build : Build} {a : Archive} {es : List Dirent} {ts : List UInt32}

/-- The entry with the number `t`. -/
def entry (es : List Dirent) (t : UInt32) : Dirent := es.getD t.toNat .new

/-- Whether the loop goes on at the entry with the number `t`. -/
def inside (es : List Dirent) (ns : UInt8) (outside : Bytes → Bool) (t : UInt32) : Bool :=
  (entry es t).getNamespace = ns && !outside (entry es t).getTitle

/-- The results for the entries with the numbers `l`. -/
def resultsOf (l : List UInt32) : List SearchResult := l.map fun t => ⟨⟨t⟩⟩

/-- Whether an iterator is the one at the end of the file. -/
theorem eq_end_run (it : ConstIterator) (f : FileImpl) :
    (do it.eq (← File.endIterator)) f = .ok (decide (f.getCountArticles ≤ it.idx)) f := by
  have heq : (decide (f.getCountArticles ≤ it.idx) &&
        decide (f.getCountArticles ≤ f.getCountArticles) ||
        decide (it.idx = f.getCountArticles)) = decide (f.getCountArticles ≤ it.idx) := by
    by_cases hle : f.getCountArticles ≤ it.idx
    · simp [hle]
    · have hne : it.idx ≠ f.getCountArticles := by
        rintro heq
        exact hle (heq ▸ UInt32.le_refl _)
      simp [hle, hne]
  exact congrArg (EStateM.Result.ok · f) heq

theorem eq_end_runs (it : ConstIterator) :
    Runs (Looking build a es) (do it.eq (← File.endIterator))
      (.ok (a.header.articleCount ≤ it.idx)) (Looking build a es) := by
  intro f hf
  rw [eq_end_run, getCountArticles, hf.1.header]
  exact ⟨rfl, hf⟩

theorem deref_good {it : ConstIterator} (hgood : it.article.good = true) :
    it.deref build = pure (it.article, it) := by
  rw [ConstIterator.deref, hgood, if_pos rfl]

section Indexed
variable (hindexed : a.Indexed build es ts)
include hindexed

theorem length_index : ts.length = a.header.articleCount.toNat := by
  have hlen := hindexed.perm.length_eq
  rw [List.length_map, List.length_range] at hlen
  rw [hlen, hindexed.count]

/-- The numbers in the title index are the ones of entries. -/
theorem index_lt {t : UInt32} (ht : t ∈ ts) : t.toNat < es.length := by
  obtain ⟨i, hi, rfl⟩ := List.mem_map.mp (hindexed.perm.mem_iff.mp ht)
  rw [List.mem_range] at hi
  rw [UInt32.toNat_ofNat']
  exact (Nat.mod_le _ _).trans_lt hi

theorem dirent_index {t : UInt32} (ht : t ∈ ts) : a.dirent build t = .ok (entry es t) := by
  have hlt := index_lt hindexed ht
  apply hindexed.dirent
  rw [List.getElem?_eq_getElem hlt, entry, List.getD_eq_getElem _ _ hlt]

theorem index_good {t : UInt32} (ht : t ∈ ts) : (Article.mk t).good = true := by
  have hlt := index_lt hindexed ht
  have hcount := length_lt hindexed
  have hne : t ≠ 0xffffffff := by
    rintro rfl
    simp only [UInt32.reduceToNat] at hlt
    omega
  simp [Article.good, hne]

theorem index_nodup : ts.Nodup := by
  rw [hindexed.perm.nodup_iff]
  refine List.Nodup.map_on (fun i hi j hj heq => ?_) List.nodup_range
  rw [List.mem_range] at hi hj
  have hcount := length_lt hindexed
  have hval := congrArg UInt32.toNat heq
  rwa [UInt32.toNat_ofNat_of_lt' (hi.trans hcount),
    UInt32.toNat_ofNat_of_lt' (hj.trans hcount)] at hval

theorem deref_runs {q t : UInt32} (ht : ts[q.toNat]? = some t) :
    Runs (Looking build a es) ((ConstIterator.new q .articleIterator).deref build)
      (.ok (⟨t⟩, ⟨q, ⟨t⟩, .articleIterator⟩)) (Looking build a es) := by
  have hruns := @getIndexByTitle_runs build a q
  rw [hindexed.index q t ht] at hruns
  have hindex : Runs (Looking build a es) (getIndexByTitle build q) (.ok t)
      (Looking build a es) := hruns.and (getIndexByTitle_coherent q)
  have hnew : (ConstIterator.new q .articleIterator).article.good = false := rfl
  rw [ConstIterator.deref, hnew, if_neg Bool.false_ne_true]
  have harticle : Runs (Looking build a es) (File.getArticleByTitle build q) (.ok ⟨t⟩)
      (Looking build a es) := hindex.bind (.pure fun _ h => h)
  show Runs _ (File.getArticleByTitle build q >>= fun article =>
    pure (article, ConstIterator.mk q article .articleIterator)) _ _
  exact harticle.bind (.pure fun _ h => h)

end Indexed

section Turn
variable {ns : UInt8} {outside : Bytes → Bool} {n : ℕ} {q t : UInt32} {results : List SearchResult}

theorem findLoop_end (hle : a.header.articleCount ≤ q) :
    Runs (Looking build a es)
      (findLoop build ns outside (n + 1) (.new q .articleIterator) results) (.ok results)
      (Looking build a es) := by
  have hend := @eq_end_runs build a es (.new q .articleIterator)
  have hdone : decide (a.header.articleCount ≤ (ConstIterator.new q .articleIterator).idx) =
      true := decide_eq_true hle
  rw [hdone] at hend
  rw [findLoop, ← bind_assoc]
  apply hend.bind
  rw [if_pos rfl]
  exact .pure fun _ h => h

variable (hindexed : a.Indexed build es ts) (ht : ts[q.toNat]? = some t)
include hindexed ht

theorem lt_articleCount_of_index : q < a.header.articleCount := by
  obtain ⟨hlt, -⟩ := List.getElem?_eq_some_iff.mp ht
  rw [length_index hindexed] at hlt
  exact UInt32.lt_iff_toNat_lt.mpr hlt

/-- A turn ends at an entry that does not pass the test, and takes any other one. -/
theorem findLoop_turn {r : Except ZimError (List SearchResult)}
    (hstop : inside es ns outside t = false → r = .ok results)
    (hrest : inside es ns outside t = true → Runs (Looking build a es)
      (findLoop build ns outside n (.new (q + 1) .articleIterator) (results ++ [⟨⟨t⟩⟩])) r
      (Looking build a es)) :
    Runs (Looking build a es)
      (findLoop build ns outside (n + 1) (.new q .articleIterator) results) r
      (Looking build a es) := by
  have hmem := List.mem_of_getElem? ht
  have hd := dirent_index hindexed hmem
  have hlt := lt_articleCount_of_index hindexed ht
  have hend := @eq_end_runs build a es (.new q .articleIterator)
  have hnotdone : decide (a.header.articleCount ≤
      (ConstIterator.new q .articleIterator).idx) = false :=
    decide_eq_false (UInt32.not_le.mpr hlt)
  have hderef : (ConstIterator.mk q ⟨t⟩ .articleIterator).deref build =
      pure (⟨t⟩, ⟨q, ⟨t⟩, .articleIterator⟩) := deref_good (index_good hindexed hmem)
  have hns : Runs (Looking build a es) ((Article.mk t).getNamespace build)
      (.ok (entry es t).getNamespace) (Looking build a es) :=
    Article.get_runs Dirent.getNamespace hd
  have htitle : Runs (Looking build a es) ((Article.mk t).getTitle build)
      (.ok (entry es t).getTitle) (Looking build a es) := Article.get_runs Dirent.getTitle hd
  rw [hnotdone] at hend
  rw [findLoop, ← bind_assoc]
  apply hend.bind
  rw [if_neg Bool.false_ne_true]
  apply (deref_runs hindexed ht).bind
  apply hns.bind
  by_cases hother : (entry es t).getNamespace = ns
  · rw [if_neg (not_not.mpr hother.symm)]
    simp only [hderef, pure_bind]
    apply htitle.bind
    by_cases hout : outside (entry es t).getTitle = true
    · rw [if_pos hout, hstop (by simp [inside, hout])]
      exact .pure fun _ h => h
    · rw [if_neg hout]
      exact hrest (by simp [inside, hother, hout])
  · rw [if_pos (Ne.symm hother), hstop (by simp [inside, hother])]
    exact .pure fun _ h => h

end Turn

/-- The loop takes the entries behind its position as long as they pass its test. -/
theorem findLoop_runs (hindexed : a.Indexed build es ts) (ns : UInt8) (outside : Bytes → Bool)
    (n : ℕ) {q : UInt32} (hq : q ≤ a.header.articleCount) (results : List SearchResult) :
    Runs (Looking build a es)
      (findLoop build ns outside n (.new q .articleIterator) results)
      (.ok (results ++ resultsOf (((ts.drop q.toNat).takeWhile (inside es ns outside)).take n)))
      (Looking build a es) := by
  induction n generalizing q results with
  | zero =>
    rw [List.take_zero, resultsOf, List.map_nil, List.append_nil]
    exact .pure fun _ h => h
  | succ n ih =>
    have hlen := length_index hindexed
    by_cases hle : a.header.articleCount ≤ q
    · have hnil : ts.drop q.toNat = [] := by
        rw [List.drop_eq_nil_iff, hlen]
        exact UInt32.le_iff_toNat_le.mp hle
      rw [hnil, List.takeWhile_nil, List.take_nil, resultsOf, List.map_nil, List.append_nil]
      exact findLoop_end hle
    · have hlt : q.toNat < ts.length := by
        rw [hlen]
        exact UInt32.lt_iff_toNat_lt.mp (UInt32.not_le.mp hle)
      obtain ⟨t, ht⟩ : ∃ t, ts[q.toNat]? = some t := ⟨_, List.getElem?_eq_getElem hlt⟩
      have hdrop : ts.drop q.toNat = t :: ts.drop (q.toNat + 1) := by
        obtain ⟨_, rfl⟩ := List.getElem?_eq_some_iff.mp ht
        exact List.drop_eq_getElem_cons hlt
      rw [hdrop]
      apply findLoop_turn hindexed ht
      · intro hout
        rw [List.takeWhile_cons_of_neg (by simp [hout]), List.take_nil, resultsOf, List.map_nil,
          List.append_nil]
      · intro hin
        have hnext := ConstIterator.toNat_next (UInt32.not_le.mp hle)
        have hq' : q + 1 ≤ a.header.articleCount := by
          rw [UInt32.le_iff_toNat_le, hnext, ← hlen]
          exact hlt
        have hrest := ih hq' (results ++ [⟨⟨t⟩⟩])
        rw [hnext, List.append_assoc] at hrest
        rw [List.takeWhile_cons_of_pos hin, List.take_succ_cons]
        exact hrest

end Runs

end Search
end Zim
