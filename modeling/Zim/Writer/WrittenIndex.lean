import Zim.Writer.WordBytes
import Zim.Writer.WrittenArticles

/-! From an archive over its full text index to a search: what zimwriter has written is read by
zimindexer, whose archive answers where a word occurs. -/
namespace Zim.Index
open Cxx

/-- The lengths of the categories that are not empty are stored. -/
theorem categoryLengths_written (cd : Categories) (cs : List (Fin 4)) (flagfield : UInt32)
    (hmarks : shiftMarks flagfield cs = marks cd cs) :
    categoryLengths nsX cs flagfield ⟨cs.flatMap fun c => firstEntry (cd c), false⟩ =
      (cs.filter fun c => cd c ≠ []).map fun c => UInt32.ofNat (zdata (cd c)).length := by
  induction cs generalizing flagfield with
  | nil => rfl
  | cons c cs ih =>
    simp only [shiftMarks, marks, List.map_cons, List.cons.injEq, Prod.mk.injEq, true_and] at hmarks
    obtain ⟨hmark, hmarks⟩ := hmarks
    have hrest := ih _ hmarks
    cases hc : cd c with
    | nil =>
      rw [hc] at hmark
      have hflag : ¬ flagfield &&& 1 ≠ 0 := by simpa using hmark
      rw [categoryLengths, if_neg hflag, List.flatMap_cons, hc, firstEntry, List.nil_append, hrest,
        List.filter_cons_of_neg (by simp [hc])]
    | cons e es =>
      rw [hc] at hmark
      have hflag : flagfield &&& 1 ≠ 0 := by simpa using hmark
      rw [categoryLengths, if_pos hflag, List.flatMap_cons, hc, firstEntry,
        List.filter_cons_of_pos (by simp [hc]), List.map_cons, hc]
      simp only [List.append_assoc, ZInt.get_put, if_true, Bool.false_eq_true, if_false, hrest]

theorem storedLengths_written (cd : Categories) : storedLengths nsX (currentParameter cd) =
    (categories.filter fun c => cd c ≠ []).map fun c => UInt32.ofNat (zdata (cd c)).length := by
  rw [storedLengths, IStream.ofBytes, currentParameter, ZInt.get_put]
  exact categoryLengths_written cd categories _ (shiftMarks_flags cd)

/-- The articles of the entries are read exactly, whatever becomes of the positions. -/
theorem readSpec_index (es : List IndexEntry) :
    (readSpec es).map IndexEntry.index = es.map IndexEntry.index := by
  have hkeys : ∀ (l : List (UInt32 × UInt32)) (a b : UInt32),
      (DeltaCode.decodeKeys a (DeltaCode.encode a b l)).map Prod.fst = l.map Prod.fst := by
    intro l
    induction l with
    | nil => intro a b; rfl
    | cons p l ih =>
      intro a b
      have hk : a + (p.1 - a) = p.1 := by rw [add_comm, sub_add_cancel]
      simp only [DeltaCode.encode, DeltaCode.decodeKeys, List.map_cons, hk, ih]
  cases es with
  | nil => rfl
  | cons e es =>
    have hpairs : ∀ l : List (UInt32 × UInt32),
        (l.map IndexEntry.ofPair).map IndexEntry.index = l.map Prod.fst := by
      intro l
      rw [List.map_map]
      rfl
    rw [readSpec, List.map_cons, hpairs, stored, hkeys, List.tail_cons, List.map_map,
      List.map_cons]
    rfl

theorem currentParameter_length (cd : Categories) : (currentParameter cd).length ≤ 255 := by
  have hput (v : UInt32) : (ZInt.put v).length ≤ 5 := by
    rw [ZInt.put_length]
    exact Nat.succ_le_succ (ZInt.extra_le v)
  have hfirst (es : List IndexEntry) : (firstEntry es).length ≤ 15 := by
    cases es with
    | nil => exact Nat.zero_le _
    | cons e es =>
      have h₁ := hput (UInt32.ofNat (zdata (e :: es)).length)
      have h₂ := hput e.index
      have h₃ := hput e.pos
      simp only [firstEntry, List.length_append]
      omega
  have hflags := hput (flags cd)
  have h₀ := hfirst (cd 0)
  have h₁ := hfirst (cd 1)
  have h₂ := hfirst (cd 2)
  have h₃ := hfirst (cd 3)
  simp only [currentParameter, categories, List.flatMap_cons, List.flatMap_nil, List.length_append,
    List.length_nil]
  omega

end Zim.Index

namespace Zim.Writer
open Cxx Stateful Index FileImpl File
namespace ZimCreator.Stores
variable {build : Build} {archive : Archive} {src : ArticleSource}
  {as : List ArticleSource.Article} {es : List Zim.Dirent} {ts : List UInt32}

/-- An article that is looked for by its title, in an archive of one namespace. -/
theorem getArticleByTitle (h : Stores build archive src as es ts) {f : FileImpl}
    (hf : Looking build archive es f) (hne : es ≠ []) {ns : UInt8}
    (hns : ∀ d ∈ es, d.getNamespace = ns) (title : Bytes) :
    ∃ article, Runs (Looking build archive es) (do
        let r ← findxByTitle build ns title
        if r.1 then File.getArticleByTitle build r.2 else return .new) (.ok article)
        (Looking build archive es) ∧
      ((∃ d, es[article.idx.toNat]? = some d ∧ d.getTitle = title) ∨
        article = .new ∧ ∀ d ∈ es, d.getTitle ≠ title) := by
  have hperm := byTitle_perm h.indexed
  have hruns := findxByTitle_runs h.indexed h.distinct.sorted hne ns title
  have hnot : ¬ BelowFirst (byTitle es ts) Zim.Dirent.getTitle ns title := by
    rintro ⟨d, hd, hlt, -⟩
    rw [hns d (hperm.mem_iff.mp (List.mem_of_getElem? hd))] at hlt
    exact lt_irrefl _ hlt
  have hlaw := (findxByTitle_lawful_iff h.indexed h.distinct.sorted h.titles hf ns title).mpr hnot
  rw [(hruns f hf).1, lawful_ok] at hlaw
  generalize found _ _ _ _ ns title = r at hruns hlaw
  obtain ⟨hit, p⟩ := r
  cases hit with
  | false =>
    refine ⟨.new, hruns.bind (.pure fun _ h => h), .inr ⟨rfl, fun d hd htitle => ?_⟩⟩
    exact hlaw.absent rfl d (hperm.mem_iff.mpr hd) ⟨hns d hd, htitle⟩
  | true =>
    obtain ⟨d, hd, -, htitle⟩ := hlaw.found rfl
    rw [byTitle, List.getElem?_map, Option.map_eq_some_iff] at hd
    obtain ⟨t, ht, rfl⟩ := hd
    have hindex : Runs (Looking build archive es) (getIndexByTitle build p) (.ok t)
        (Looking build archive es) := by
      have hindex := @getIndexByTitle_runs build archive p
      rw [h.indexed.index p t ht] at hindex
      exact hindex.and (getIndexByTitle_coherent p)
    have hlt : t.toNat < es.length := by
      obtain ⟨i, hi, rfl⟩ := List.mem_map.mp
        (h.indexed.perm.mem_iff.mp (List.mem_of_getElem? ht))
      rw [List.mem_range] at hi
      rw [UInt32.toNat_ofNat']
      exact (Nat.mod_le _ _).trans_lt hi
    refine ⟨⟨t⟩, hruns.bind (hindex.bind (.pure fun _ h => h)), .inl ⟨es[t.toNat], ?_, ?_⟩⟩
    · exact List.getElem?_eq_getElem hlt
    · rwa [List.getD_eq_getElem _ _ hlt] at htitle

end ZimCreator.Stores

namespace Indexer
open ZimCreator
variable {writes : List WordWrite} {uuid : Uuid}

section Source

theorem source_article {a : ArticleSource.Article} (ha : a ∈ (source writes uuid).articles) :
    ∃ word ∈ wordsOf writes, a = (articleOf writes word).article := by
  obtain ⟨word, hword, rfl⟩ := List.mem_map.mp ha
  exact ⟨word, hword, rfl⟩

theorem source_kept : keptArticles (source writes uuid) = (source writes uuid).articles := by
  refine keptArticles_eq_self fun a ha => ?_
  obtain ⟨word, -, rfl⟩ := source_article ha
  rfl

theorem source_plain (hzero : ∀ w ∈ writes, 0 ∉ w.1) :
    ∀ a ∈ (source writes uuid).articles, Plain a := by
  intro a ha
  obtain ⟨word, hword, rfl⟩ := source_article ha
  obtain ⟨w, hw, rfl⟩ := mem_wordsOf.mp hword
  refine ⟨hzero w hw, by simp [IndexArticle.article], fun _ => ?_, ?_⟩
  · rw [show (articleOf writes w.1).article.mimeType = IndexArticle.mimeType from rfl]
    decide
  · exact currentParameter_length _

theorem source_urls : (source writes uuid).DistinctUrls := by
  unfold ArticleSource.DistinctUrls source
  rw [List.map_map]
  have hnodup : (wordsOf writes).Nodup := (wordsOf_sorted writes).imp fun h => ne_of_lt h
  refine hnodup.map fun word word' h => ?_
  exact (Prod.mk.inj h).2

/-- A category with two entries has data. -/
theorem source_data {word : Bytes} {c : Fin 4} (hword : 2 ≤ (entriesOf writes word c).length)
    (hsize : totalSize (entriesOf writes word) < 2 ^ 32) :
    ((source writes uuid).getData word).val ≠ [] := by
  have hpos : 0 < (zdata (entriesOf writes word c)).length := by
    rw [zdata_eq]
    have hle := codes_length_ge (stored (entriesOf writes word c))
    rw [stored, DeltaCode.encode_length, List.length_map, List.length_tail] at hle
    rw [stored]
    omega
  have hlen : 0 < (Index.currentZData (entriesOf writes word)).length := by
    rw [Index.currentZData, List.length_flatMap]
    have hle := List.le_sum_of_mem (List.mem_map_of_mem
      (f := fun c => (zdata (entriesOf writes word c)).length) (mem_categories c))
    omega
  intro hnil
  have hzero := congrArg List.length hnil
  rw [currentZData_length] at hlen
  simp only [source, dataBlob, List.length_take, currentZData_length, List.length_nil,
    Nat.mod_eq_of_lt hsize] at hzero
  omega

end Source

section Search
variable {build : Build} {archive : Archive} {as : List ArticleSource.Article}
  {es : List Zim.Dirent} {ts : List UInt32}

/-- What is read of an index archive for a word. -/
theorem indexEntries_runs (h : Stores build archive (source writes uuid) as es ts) {f : FileImpl}
    (hf : Looking build archive es f) (hne : es ≠ [])
    (hsize : ∀ word, totalSize (entriesOf writes word) < 2 ^ 32) (stale : UInt32) (word : Bytes) :
    Runs (fun files : Search.Files =>
        Looking build archive es (files.indexfile.getD files.articlefile))
      (Search.indexEntries build false stale word)
      (.ok fun c => readSpec (entriesOf writes word c))
      (fun files => Looking build archive es (files.indexfile.getD files.articlefile)) := by
  have hentry {d : Zim.Dirent} (hd : d ∈ es) : ∃ word ∈ wordsOf writes,
      ReadAs build archive (source writes uuid).getData (articleOf writes word).article d := by
    obtain ⟨i, hi, rfl⟩ := List.getElem_of_mem hd
    have hi' : i < as.length := h.length_eq.symm ▸ hi
    have hmem := h.perm.mem_iff.mp (List.getElem_mem hi')
    rw [source_kept] at hmem
    obtain ⟨word, hword, ha⟩ := source_article hmem
    have has := h.entries.get hi' hi
    simp only [List.get_eq_getElem, ha] at has
    exact ⟨word, hword, has⟩
  have hns : ∀ d ∈ es, d.getNamespace = nsX := by
    intro d hd
    obtain ⟨word, -, has⟩ := hentry hd
    exact has.ns
  have htitle {d : Zim.Dirent} {w : Bytes}
      (has : ReadAs build archive (source writes uuid).getData (articleOf writes w).article d) :
      d.getTitle = w := has.title.trans (if_pos rfl)
  obtain ⟨article, hfound, harticle⟩ := h.getArticleByTitle hf hne hns word
  refine Runs.within (fun files f => ?_) ?_
  · cases files.indexfile <;> rfl
  refine (Runs.within (fun _ _ => rfl) hfound).bind ?_
  rcases harticle with ⟨d, hd, rfl⟩ | ⟨rfl, habsent⟩
  · obtain ⟨w, hword, has⟩ := hentry (List.mem_of_getElem? hd)
    rw [htitle has]
    have hdirent := h.indexed.dirent _ _ hd
    have hgood : article.good = true := by
      have hlt := (List.getElem?_eq_some_iff.mp hd).1
      have hcount := FileImpl.length_lt h.indexed
      have hne' : article.idx ≠ 0xffffffff := by
        intro heq
        rw [heq] at hlt
        simp only [UInt32.reduceToNat] at hlt
        omega
      simp [Article.good, hne']
    have hparameter : d.getParameter = Index.currentParameter (entriesOf writes w) := has.parameter
    have hpnil : Index.currentParameter (entriesOf writes w) ≠ [] := by
      intro hnil
      have hlen := congrArg List.length hnil
      simp [Index.currentParameter] at hlen
    obtain ⟨c, hc⟩ : ∃ c, entriesOf writes w c ≠ [] := by
      have hoccurs := List.exists_mem_of_ne_nil _ (occurrences_ne_nil.mpr hword)
      obtain ⟨occ, hocc⟩ := hoccurs
      refine ⟨occ.weight, List.ne_nil_of_mem (List.mem_map.mpr ⟨occ, ?_, rfl⟩)⟩
      exact List.mem_filter.mpr ⟨hocc, by simp⟩
    have hlengths : storedLengths nsX (Index.currentParameter (entriesOf writes w)) ≠ [] := by
      rw [storedLengths_written]
      refine List.ne_nil_of_mem (List.mem_map_of_mem (List.mem_filter.mpr ⟨mem_categories c, ?_⟩))
      simpa using hc
    have hdata : Runs (Looking build archive es) (article.getData build)
        (.ok (some ((source writes uuid).getData w).val)) (Looking build archive es) := by
      obtain ⟨cl, hcl, hb⟩ := has.blob rfl
      exact Article.getData_runs hdirent has.redirect hcl hb
    have honFile {α : Type} {x : FileImpl.M α} {a : α}
        (hx : Runs (Looking build archive es) x (.ok a) (Looking build archive es)) :
        Runs (Looking build archive es) (IndexArticle.onFile x) (.ok a)
          (Looking build archive es) := Runs.within (fun _ _ => rfl) hx
    rw [IndexArticle.readEntries, hgood, if_neg (by decide)]
    refine (honFile (Article.get_runs Zim.Dirent.getParameter hdirent)).bind ?_
    refine (honFile (Article.get_runs Zim.Dirent.getNamespace hdirent)).bind ?_
    rw [hparameter, has.ns, if_neg hpnil, show (articleOf writes w).article.ns = nsX from rfl,
      if_neg hlengths]
    have hblob : Runs (Looking build archive es) (IndexArticle.getData build article)
        (.ok (dataBlob (Index.currentZData (entriesOf writes w)))) (Looking build archive es) :=
      (honFile hdata).bind (.pure fun _ h => h)
    refine hblob.bind ?_
    simp only [readEntriesZ_written _ (hsize w)]
    exact .pure fun _ h => h
  · have hnone : occurrences writes word = [] := by
      by_contra hsome
      have hword := occurrences_ne_nil.mp hsome
      have hmem : (articleOf writes word).article ∈ (source writes uuid).articles :=
        List.mem_map.mpr ⟨word, hword, rfl⟩
      rw [← source_kept, ← h.perm.mem_iff] at hmem
      obtain ⟨i, hi, ha⟩ := List.getElem_of_mem hmem
      have hi' : i < es.length := h.length_eq ▸ hi
      have has := h.entries.get hi hi'
      simp only [List.get_eq_getElem, ha] at has
      exact habsent _ (List.getElem_mem hi') (htitle has)
    have hentries : entriesOf writes word = fun _ => [] := by
      rw [entriesOf, hnone]
      rfl
    rw [IndexArticle.readEntries, show Article.new.good = false from rfl, if_pos (by decide),
      hentries]
    exact .pure fun _ h => h

end Search

section Arguments
variable {build : Build} {src : ArticleSource} {archive : Archive}
  {as : List ArticleSource.Article} {es : List Zim.Dirent} {ts : List UInt32}

/-- What is indexed of the article with the number `i`: nothing of a redirect, of other types than
html, xml and templates, and of the layout page. -/
def indexArgument (layoutPage : UInt32) (src : ArticleSource) (i : UInt32)
    (a : ArticleSource.Article) : Option Article :=
  if a.redirect then none
  else if a.mimeType.take 9 ≠ Zim.Article.text "text/html" ∧
      a.mimeType.take 8 ≠ Zim.Article.text "text/xml" ∧
      a.mimeType ≠ Zim.Article.mimeHtmlTemplate then none
  else if i = layoutPage then none
  else some ⟨i, if a.title = [] then a.url else a.title, (src.getData a.aid).val⟩

def indexArguments (layoutPage : UInt32) (src : ArticleSource)
    (as : List ArticleSource.Article) : List (Option Article) :=
  as.mapIdx fun i a => indexArgument layoutPage src (UInt32.ofNat i) a

theorem articleToIndex_runs (h : Stores build archive src as es ts) {i : UInt32}
    {a : ArticleSource.Article} (ha : as[i.toNat]? = some a) :
    Runs (Looking build archive es) (articleToIndex build ⟨i⟩)
      (.ok (indexArgument archive.header.layoutPage src i a)) (Looking build archive es) := by
  obtain ⟨d, -, hd, has⟩ := h.entry ha
  refine (onFile_runs (Article.get_runs Zim.Dirent.isRedirect hd)).bind ?_
  unfold indexArgument
  rw [has.redirect]
  cases hr : a.redirect with
  | true => exact .pure fun _ h => h
  | false =>
    simp only [Bool.false_eq_true, if_false]
    refine (onFile_runs (Article.getMimeType_runs hd (has.mimeType hr))).bind ?_
    by_cases htype : a.mimeType.take 9 ≠ Zim.Article.text "text/html" ∧
        a.mimeType.take 8 ≠ Zim.Article.text "text/xml" ∧ a.mimeType ≠ Zim.Article.mimeHtmlTemplate
    · simp only [if_pos htype]
      exact .pure fun _ h => h
    simp only [if_neg htype]
    refine .get_bind fun f hf => ?_
    rw [hf.1.header]
    by_cases hlayout : i = archive.header.layoutPage
    · rw [if_pos hlayout, if_pos (show (Zim.Article.mk i).getIndex = _ from hlayout)]
      exact .pure fun _ h => h
    rw [if_neg hlayout, if_neg (show ¬ (Zim.Article.mk i).getIndex = _ from hlayout), ← has.title]
    refine (onFile_runs (h.getData ha hr)).bind ?_
    exact (onFile_runs (Article.get_runs Zim.Dirent.getTitle hd)).bind (.pure fun _ h => h)

theorem indexArguments_runs (h : Stores build archive src as es ts) {i : UInt32}
    {a : Option Article}
    (ha : (indexArguments archive.header.layoutPage src as)[i.toNat]? = some a) :
    Runs (Looking build archive es) (articleToIndex build ⟨i⟩) (.ok a)
      (Looking build archive es) := by
  rw [indexArguments, List.getElem?_mapIdx, Option.map_eq_some_iff] at ha
  obtain ⟨a, ha, rfl⟩ := ha
  rw [UInt32.ofNat_toNat]
  exact articleToIndex_runs h ha

theorem indexArguments_count (h : Stores build archive src as es ts) (f : FileImpl)
    (hf : Looking build archive es f) :
    f.getCountArticles.toNat = (indexArguments archive.header.layoutPage src as).length := by
  rw [indexArguments, List.length_mapIdx, h.length_eq, h.indexed.count, FileImpl.getCountArticles,
    hf.1.header]

/-- Articles in the order of their urls are those of the entries. -/
theorem stores_unique (h : Stores build archive src as es ts) {bs : List ArticleSource.Article}
    (hperm : bs.Perm (keptArticles src))
    (hsorted : bs.Pairwise fun a b => charStringKey a.ns a.url < charStringKey b.ns b.url) :
    bs = as := by
  have horder : as.Pairwise fun a b => charStringKey a.ns a.url < charStringKey b.ns b.url := by
    refine List.pairwise_iff_getElem.mpr fun i j hi hj hlt => ?_
    have hi' : i < es.length := h.length_eq ▸ hi
    have hj' : j < es.length := h.length_eq ▸ hj
    have hkey := List.pairwise_iff_getElem.mp h.distinct i j hi' hj' hlt
    have hasi := h.entries.get hi hi'
    have hasj := h.entries.get hj hj'
    simp only [List.get_eq_getElem] at hasi hasj
    rwa [hasi.ns, hasi.url, hasj.ns, hasj.url] at hkey
  refine (hperm.trans h.perm.symm).eq_of_pairwise (fun a b _ _ hab hba => ?_) hsorted horder
  exact absurd (hab.trans hba) (lt_irrefl _)

end Arguments

/-- An article with a word in its title and another one twice in its text. -/
def abTwice : ArticleSource where
  articles := [⟨[1], 65, [0x75], [0x74], false, Zim.Article.text "text/html", true, [], []⟩]
  getData _ := ⟨[0x61, 0x62, 0x20, 0x61, 0x62], by decide⟩
  uuid := zeroUuid
  mainPage := []
  layoutPage := []

def abWrites : List WordWrite :=
  [([0x74], ⟨0, 0, 0⟩), ([0x61, 0x62], ⟨0, 1, 3⟩), ([0x61, 0x62], ⟨0, 4, 3⟩)]

theorem inRange_of_check {src : ArticleSource} (hr : ∀ a ∈ src.articles, a.redirect = false)
    (hcount : src.articles.length < 2 ^ 32) (hsizes : ∀ a ∈ src.articles, a.size < 2 ^ 32)
    (hcheck : (match (new 1 .zimcompNone).createDirents .insertion src with
      | .ok zc => (groupsOf src.getData zc).all fun group => groupSize src.getData group < 2 ^ 32
      | .error _ => false) = true) : InRange .insertion 1 .zimcompNone src := by
  rw [← keptArticles_eq_self hr] at hcount hsizes
  refine ⟨hcount, hsizes, fun zc hzc => ?_⟩
  rw [hzc] at hcheck
  intro group hgroup
  exact of_decide_eq_true (List.all_eq_true.mp hcheck group hgroup)

theorem abWrites_size (word : Bytes) : totalSize (entriesOf abWrites word) < 2 ^ 32 := by
  by_cases hword : word ∈ wordsOf abWrites
  · have hall : ∀ word ∈ wordsOf abWrites, totalSize (entriesOf abWrites word) < 2 ^ 32 := by
      decide +kernel
    exact hall word hword
  · rw [← occurrences_ne_nil, not_not] at hword
    rw [entriesOf, hword]
    decide


theorem abTwice_urls : abTwice.DistinctUrls := by
  unfold ArticleSource.DistinctUrls
  decide

theorem abTwice_plain : ∀ a ∈ abTwice.articles, Plain a := by
  intro a ha
  rw [List.mem_singleton.mp ha]
  exact ⟨by decide, by decide, fun _ => by decide, by decide⟩

theorem abTwice_data :
    ∃ a ∈ abTwice.articles, a.redirect = false ∧ (abTwice.getData a.aid).val ≠ [] :=
  ⟨_, List.mem_singleton_self _, rfl, by decide⟩

theorem abTwice_inRange : InRange .insertion 1 .zimcompNone abTwice :=
  inRange_of_check (by decide) (by decide) (by decide) (by decide +kernel)

theorem abTwice_kept : keptArticles abTwice = abTwice.articles := keptArticles_eq_self (by decide)

theorem abTwice_opens : ∃ content f,
    create .insertion .noCodecs zeroDigest 1 .zimcompNone abTwice = .ok content ∧
    FileImpl.new .noCodecs content 2 2 = .ok f ∧ f.header.layoutPage = 0xffffffff := by
  have hopens : Fallible.passes
      (create .insertion .noCodecs zeroDigest 1 .zimcompNone abTwice) (fun content =>
        Fallible.passes (FileImpl.new .noCodecs content 2 2) fun f =>
          f.header.layoutPage = 0xffffffff) = true := by decide +kernel
  obtain ⟨content, hcreate, hopens⟩ := Fallible.exists_of_passes hopens
  obtain ⟨f, hnew, hlayout⟩ := Fallible.exists_of_passes hopens
  exact ⟨content, f, hcreate, hnew, of_decide_eq_true hlayout⟩

theorem abWrites_eq : abWrites = indexWrites (fun _ => false) (.new [])
    (indexArguments 0xffffffff abTwice abTwice.articles) := by decide +kernel

theorem abWrites_records (word : Bytes) : 9 * (occurrences abWrites word).length < 2 ^ 32 := by
  have hle : (occurrences abWrites word).length ≤ abWrites.length := by
    rw [occurrences, List.length_map]
    exact List.length_filter_le _ _
  have hthree : abWrites.length = 3 := rfl
  omega

/-- Behind `createIndex`, which succeeds where every article can be read, calls in any order are
answered as by the source of the words in order with the records of their occurrences. -/
theorem createIndex_answers {build : Build} (zimIsalnum : UInt32 → Bool) (o : ByteOrder)
    (uninit : Mstream.Page) {trivialWordsFile : Option (Option Bytes)} {trivial : List Bytes}
    (htrivial : ∀ f, trivialWords trivialWordsFile f = .ok trivial f) {P : FileImpl → Prop}
    {f : FileImpl} (hf : P f) {as : List (Option Article)}
    (hcount : ∀ f, P f → f.getCountArticles.toNat = as.length)
    (hread : ∀ i a, as[i.toNat]? = some a → Runs P (articleToIndex build ⟨i⟩) (.ok a) P)
    (hfew : 9 * (indexWrites zimIsalnum (.new trivial) as).length < 1152 * (2 ^ 32 - 1))
    (hsize : ∀ word,
      9 * (occurrences (indexWrites zimIsalnum (.new trivial) as) word).length < 2 ^ 32) :
    ∃ x f', createIndex build zimIsalnum o uninit trivialWordsFile f = .ok x f' ∧ P f' ∧
      ∀ uuid calls, (∀ aid, .getData aid ∈ calls →
          ∃ w ∈ indexWrites zimIsalnum (.new trivial) as, w.1 = aid) →
        x.run o calls =
          .ok (answers (source (indexWrites zimIsalnum (.new trivial) as) uuid) 0 calls) := by
  obtain ⟨x, pages, cells, hruns, hinv, hnames, hcurrent⟩ :=
    createIndex_runs o uninit hf hcount hread htrivial hfew
  obtain ⟨hout, hstate⟩ := hruns f hf
  refine ⟨x, _, eq_ok_of_outcome hout, hstate, fun uuid calls hcalls => ?_⟩
  exact run_answers ⟨⟨pages, cells, hinv⟩, hnames⟩ (indexWrites_weighted _ _ _) 0 hcurrent
    hsize uuid calls fun aid hcall => mem_wordsOf.mpr (hcalls aid hcall)

theorem createIndex_answers_abTwice : ∃ f x f',
    createIndex .noCodecs (fun _ => false) .little .blank none f = .ok x f' ∧
      ∀ uuid calls, (∀ aid, .getData aid ∈ calls → ∃ w ∈ abWrites, w.1 = aid) →
        x.run .little calls = .ok (answers (source abWrites uuid) 0 calls) := by
  obtain ⟨content, f, hcreate, hnew, hlayout⟩ := abTwice_opens
  obtain ⟨f₁, as, es, ts, hnew₁, hstores, hlooking⟩ :=
    create_stores abTwice_urls abTwice_plain abTwice_data abTwice_inRange
      (Build.noCodecs_lossless _) hcreate 2 2
  rw [hnew] at hnew₁
  cases hnew₁
  have hone : as = abTwice.articles := by
    have hperm := hstores.perm
    rw [abTwice_kept] at hperm
    exact List.perm_singleton.mp hperm
  subst hone
  have hwrites := abWrites_eq
  rw [← hlayout] at hwrites
  have hnone : ∀ f, trivialWords none f = .ok [] f := fun _ => rfl
  obtain ⟨x, f', hx, -, hanswers⟩ := createIndex_answers (fun _ => false) .little
    Mstream.Page.blank hnone hlooking (indexArguments_count hstores)
    (fun i a ha => indexArguments_runs hstores ha) (by rw [← hwrites]; decide)
    (by rw [← hwrites]; exact abWrites_records)
  rw [← hwrites] at hanswers
  exact ⟨f, x, f', hx, hanswers⟩

section Whole
variable {std : StdSort} {build : Build} {md5 : Bytes → { bs : Bytes // bs.length = 16 }}
  {src : ArticleSource} {as : List ArticleSource.Article}

/-- The index of an archive that zimwriter has written: zimindexer indexes it, and in the archive
of its words a search finds for every word, in each category, the articles of all its occurrences,
and their positions if and only if none of them is stored as a difference. Some word must occur
twice in a category: with one occurrence each, all data is in the parameters, and the archive that
is written has no clusters. -/
theorem create_index_search {minChunkSize minChunkSize' : UInt32}
    {compression compression' : CompressionType} {content content' : Bytes}
    {direntCache clusterCache : ℕ} {f : FileImpl} {zimIsalnum : UInt32 → Bool}
    {uninit : Mstream.Page} {trivialWordsFile : Option (Option Bytes)} {trivial : List Bytes}
    {writes : List WordWrite} {uuid : Uuid} (hurls : src.DistinctUrls)
    (hplain : ∀ a ∈ src.articles, Plain a)
    (hdata : ∃ a ∈ src.articles, a.redirect = false ∧ (src.getData a.aid).val ≠ [])
    (hrange : InRange std minChunkSize compression src) (hlossless : build.Lossless compression)
    (h : create std build md5 minChunkSize compression src = .ok content)
    (hnew : FileImpl.new build content direntCache clusterCache = .ok f)
    (hperm : as.Perm (keptArticles src))
    (hsorted : as.Pairwise fun a b => charStringKey a.ns a.url < charStringKey b.ns b.url)
    (htrivial : ∀ f, trivialWords trivialWordsFile f = .ok trivial f)
    (hwrites : writes =
      indexWrites zimIsalnum (.new trivial) (indexArguments f.header.layoutPage src as))
    (hfew : 9 * writes.length < 1152 * (2 ^ 32 - 1))
    (hrecords : ∀ word, 9 * (occurrences writes word).length < 2 ^ 32)
    (hsize : ∀ word, totalSize (entriesOf writes word) < 2 ^ 32)
    (hrange' : InRange std minChunkSize' compression' (source writes uuid))
    (hlossless' : build.Lossless compression')
    (h' : create std build md5 minChunkSize' compression' (source writes uuid) = .ok content') :
    (∃ x f', createIndex build zimIsalnum build.host uninit trivialWordsFile f = .ok x f' ∧
      ∀ calls, (∀ aid, .getData aid ∈ calls → ∃ w ∈ writes, w.1 = aid) →
        x.run build.host calls = .ok (answers (source writes uuid) 0 calls)) ∧
    ((∃ word c, 2 ≤ (entriesOf writes word c).length) →
      ∃ g, FileImpl.new build content' direntCache clusterCache = .ok g ∧
      ∃ P : Search.Files → Prop, (∀ files, files.indexfile.getD files.articlefile = g → P files) ∧
        ∀ stale word, ∃ entries,
          Runs P (Search.indexEntries build false stale word) (.ok entries) P ∧ ∀ c,
          (entries c).map IndexEntry.index = (entriesOf writes word c).map IndexEntry.index ∧
          (entries c = entriesOf writes word c ↔
            NoStoredDifference (entriesOf writes word c))) := by
  obtain ⟨f₁, bs, es, ts, hnew₁, hstores, hlooking⟩ :=
    create_stores hurls hplain hdata hrange hlossless h direntCache clusterCache
  rw [hnew] at hnew₁
  cases hnew₁
  obtain rfl := stores_unique hstores hperm hsorted
  constructor
  · subst hwrites
    obtain ⟨x, pages, cells, hruns, hinv, hnames, hcurrent⟩ :=
      createIndex_runs build.host uninit hlooking (indexArguments_count hstores)
        (fun i a ha => indexArguments_runs hstores ha) htrivial hfew
    refine ⟨x, _, eq_ok_of_outcome (hruns f hlooking).1, fun calls hcalls => ?_⟩
    exact run_answers ⟨⟨pages, cells, hinv⟩, hnames⟩ (indexWrites_weighted _ _ _) 0
      hcurrent hrecords uuid calls fun aid hcall => mem_wordsOf.mpr (hcalls aid hcall)
  · intro htwice
    have hzero : ∀ w ∈ writes, 0 ∉ w.1 := by
      rw [hwrites]
      exact indexWrites_noZero zimIsalnum _ _
    obtain ⟨word, c, htwo⟩ := htwice
    have hword : word ∈ wordsOf writes := by
      rw [← occurrences_ne_nil]
      intro hnil
      rw [entriesOf, hnil] at htwo
      exact absurd htwo (Nat.not_succ_le_zero _)
    have hdata' : ∃ a ∈ (source writes uuid).articles, a.redirect = false ∧
        ((source writes uuid).getData a.aid).val ≠ [] :=
      ⟨(articleOf writes word).article, List.mem_map.mpr ⟨word, hword, rfl⟩, rfl,
        source_data htwo (hsize word)⟩
    obtain ⟨g, as', es', ts', hnew', hstores', hlooking'⟩ :=
      create_stores source_urls (source_plain hzero) hdata' hrange' hlossless' h' direntCache
        clusterCache
    have hne : es' ≠ [] := by
      intro hnil
      have hlen := hstores'.length_eq
      rw [hnil, hstores'.perm.length_eq, source_kept, source, List.length_map,
        List.length_nil] at hlen
      rw [List.length_eq_zero_iff.mp hlen] at hword
      cases hword
    refine ⟨g, hnew', _, fun files hfiles => ?_, fun stale word =>
      ⟨_, indexEntries_runs hstores' hlooking' hne hsize stale word, fun c =>
        ⟨readSpec_index _, readSpec_eq_iff _⟩⟩⟩
    rw [hfiles]
    exact hlooking'

end Whole

theorem create_index_search_abTwice : ∃ content content' f,
    create .insertion .noCodecs zeroDigest 1 .zimcompNone abTwice = .ok content ∧
    FileImpl.new .noCodecs content 2 2 = .ok f ∧
    create .insertion .noCodecs zeroDigest 1 .zimcompNone (source abWrites zeroUuid) =
      .ok content' ∧
    (∃ x f', createIndex .noCodecs (fun _ => false) .little .blank none f = .ok x f' ∧
      ∀ calls, (∀ aid, .getData aid ∈ calls → ∃ w ∈ abWrites, w.1 = aid) →
        x.run .little calls = .ok (answers (source abWrites zeroUuid) 0 calls)) ∧
    ∃ g, FileImpl.new .noCodecs content' 2 2 = .ok g ∧
      ∃ P : Search.Files → Prop, (∀ files, files.indexfile.getD files.articlefile = g → P files) ∧
        ∀ stale word, ∃ entries,
          Runs P (Search.indexEntries .noCodecs false stale word) (.ok entries) P ∧ ∀ c,
          (entries c).map IndexEntry.index = (entriesOf abWrites word c).map IndexEntry.index ∧
          (entries c = entriesOf abWrites word c ↔
            NoStoredDifference (entriesOf abWrites word c)) := by
  obtain ⟨content, f, hcreate, hnew, hlayout⟩ := abTwice_opens
  obtain ⟨content', hcreate'⟩ := Fallible.exists_ok (x := create .insertion .noCodecs zeroDigest 1
    .zimcompNone (source abWrites zeroUuid)) (by decide +kernel)
  refine ⟨content, content', f, hcreate, hnew, hcreate', ?_⟩
  have hnone : ∀ f, trivialWords none f = .ok [] f := fun _ => rfl
  have hperm : abTwice.articles.Perm (keptArticles abTwice) := by rw [abTwice_kept]
  have hinRange : InRange .insertion 1 .zimcompNone (source abWrites zeroUuid) :=
    inRange_of_check (by decide +kernel) (by decide +kernel) (by decide +kernel)
      (by decide +kernel)
  obtain ⟨hindexed, hsearched⟩ := create_index_search abTwice_urls abTwice_plain abTwice_data
    abTwice_inRange (Build.noCodecs_lossless _) hcreate hnew hperm (List.pairwise_singleton _ _)
    hnone (hlayout ▸ abWrites_eq) (by decide) abWrites_records abWrites_size hinRange
    (Build.noCodecs_lossless _) hcreate'
  exact ⟨hindexed, hsearched ⟨[0x61, 0x62], 3, by decide⟩⟩

end Indexer
end Zim.Writer
