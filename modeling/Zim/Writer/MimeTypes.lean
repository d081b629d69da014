import Mathlib.Data.List.TakeWhile
import Zim.Lib.OrderedMap
import Zim.Writer.RoundTrip

/-! The codes of mime types: the two maps of `ZimCreator`, their table in the archive, and what
a reader finds under a code. -/
namespace Zim.Writer
open Cxx Stateful

/-- The members of `ZimCreator` that `getMimeTypeIdx` works on. -/
structure MimeTypes where
  mimeTypes : List (Bytes × UInt16)
  rmimeTypes : List (UInt16 × Bytes)
  nextMimeIdx : UInt16

namespace MimeTypes

def new : MimeTypes := ⟨[], [], 0⟩

def getMimeTypeIdx (t : MimeTypes) (mimeType : Bytes) : Except ZimError (UInt16 × MimeTypes) :=
  match OrderedMap.find mimeType t.mimeTypes with
  | none =>
    if 0xffff ≤ t.nextMimeIdx then .error (.runtime "too many distinct mime types")
    else .ok (t.nextMimeIdx,
      ⟨OrderedMap.put mimeType t.nextMimeIdx t.mimeTypes,
        OrderedMap.put t.nextMimeIdx mimeType t.rmimeTypes, t.nextMimeIdx + 1⟩)
  | some idx => .ok (idx, t)

/-- One call after another. -/
def getMimeTypeIdxs (t : MimeTypes) : List Bytes → Except ZimError (List UInt16 × MimeTypes)
  | [] => .ok ([], t)
  | mimeType :: mimeTypes => do
    let (idx, t) ← t.getMimeTypeIdx mimeType
    let (idxs, t) ← t.getMimeTypeIdxs mimeTypes
    return (idx :: idxs, t)

/-- The list that `write` emits, in the order of the second map. -/
def mimeList (t : MimeTypes) : Bytes := t.rmimeTypes.flatMap (fun it => it.2 ++ [0]) ++ [0]

/-- The maps hold the mime types of a list, each with its position as its code. -/
structure Represents (t : MimeTypes) (l : List Bytes) : Prop where
  next : t.nextMimeIdx.toNat = l.length
  nodup : l.Nodup
  codes : ∀ m, OrderedMap.find m t.mimeTypes =
    if m ∈ l then some (UInt16.ofNat (l.idxOf m)) else none
  table : t.rmimeTypes = l.mapIdx fun i m => (UInt16.ofNat i, m)

theorem new_represents : Represents .new [] := ⟨rfl, .nil, fun _ => rfl, rfl⟩

variable {t t' : MimeTypes} {l : List Bytes} {m : Bytes}

theorem Represents.nextMimeIdx_eq (h : t.Represents l) : t.nextMimeIdx = UInt16.ofNat l.length := by
  rw [← h.next, UInt16.ofNat_toNat]

/-- A new mime type gets the next code in both maps. -/
theorem Represents.add (h : t.Represents l) (hm : m ∉ l) (hfree : l.length < 0xffff) :
    Represents ⟨OrderedMap.put m t.nextMimeIdx t.mimeTypes,
      OrderedMap.put t.nextMimeIdx m t.rmimeTypes, t.nextMimeIdx + 1⟩ (l ++ [m]) := by
  have hnext := h.next
  have hlast : ∀ e ∈ t.rmimeTypes, e.1 < t.nextMimeIdx := by
    intro e he
    rw [h.table] at he
    obtain ⟨i, hi, rfl⟩ := List.mem_mapIdx.mp he
    rw [UInt16.lt_iff_toNat_lt, hnext,
      UInt16.toNat_ofNat_of_lt' (by simp only [UInt16.size]; omega)]
    exact hi
  constructor
  case next =>
    rw [UInt16.toNat_add, hnext, List.length_append]
    exact Nat.mod_eq_of_lt (by simp only [UInt16.reduceToNat]; omega)
  case nodup => exact List.nodup_append.mpr ⟨h.nodup, List.nodup_singleton m, by
    rintro a ha b hb rfl
    exact hm (List.mem_singleton.mp hb ▸ ha)⟩
  case codes =>
    intro m'
    rw [OrderedMap.find_put, h.codes]
    by_cases heq : m' = m
    · subst heq
      rw [if_pos rfl, if_pos (List.mem_append_right _ (List.mem_singleton_self m')),
        List.idxOf_append_of_notMem hm, h.nextMimeIdx_eq]
      simp
    · by_cases hmem : m' ∈ l
      · rw [if_neg heq, if_pos hmem, if_pos (List.mem_append_left _ hmem),
          List.idxOf_append_of_mem hmem]
      · rw [if_neg heq, if_neg hmem, if_neg (by simp [hmem, heq])]
  case table =>
    rw [OrderedMap.put_last hlast, h.table, List.mapIdx_append, h.nextMimeIdx_eq]
    simp

/-- The maps answer as the list does, and stay its maps. -/
theorem Represents.getMimeTypeIdx {zc : ZimCreator} (h : t.Represents zc.mimeTypes) (m : Bytes) :
    (∃ e, t.getMimeTypeIdx m = .error e ∧ zc.getMimeTypeIdx m = .error e) ∨
      ∃ idx t' zc', t.getMimeTypeIdx m = .ok (idx, t') ∧ zc.getMimeTypeIdx m = .ok (idx, zc') ∧
        t'.Represents zc'.mimeTypes := by
  by_cases hm : m ∈ zc.mimeTypes
  · right
    have hidx : zc.mimeTypes.idxOf m ≠ zc.mimeTypes.length := (List.idxOf_lt_length_of_mem hm).ne
    refine ⟨UInt16.ofNat (zc.mimeTypes.idxOf m), t, zc, ?_, ?_, h⟩
    · rw [MimeTypes.getMimeTypeIdx, h.codes, if_pos hm]
    · simp only [ZimCreator.getMimeTypeIdx, if_neg hidx]
  · have hidx : zc.mimeTypes.idxOf m = zc.mimeTypes.length := List.idxOf_eq_length hm
    simp only [MimeTypes.getMimeTypeIdx, h.codes, if_neg hm, ZimCreator.getMimeTypeIdx, hidx,
      if_true, ← h.nextMimeIdx_eq]
    by_cases hfull : 0xffff ≤ t.nextMimeIdx
    · left
      exact ⟨_, if_pos hfull, if_pos hfull⟩
    · right
      refine ⟨_, _, _, if_neg hfull, if_neg hfull, h.add hm ?_⟩
      rw [UInt16.le_iff_toNat_le, h.next] at hfull
      exact Nat.lt_of_not_le hfull

end MimeTypes

/-- The mime types that the loop over some articles asks `getMimeTypeIdx` for. -/
def askedMimeTypes (articles : List ArticleSource.Article) : List Bytes :=
  (articles.filter fun a => !a.redirect).map fun a => a.mimeType

/-- The codes that the articles among some entries have got. -/
def entryCodes (dirents : List Dirent) : List UInt16 :=
  (dirents.filter fun d => !d.isRedirect).map fun d => d.getMimeType

theorem askedMimeTypes_cons (a : ArticleSource.Article) (articles : List ArticleSource.Article) :
    askedMimeTypes (a :: articles) =
      if a.redirect then askedMimeTypes articles else a.mimeType :: askedMimeTypes articles := by
  cases h : a.redirect <;> simp [askedMimeTypes, h]

theorem entryCodes_append (ds ds' : List Dirent) :
    entryCodes (ds ++ ds') = entryCodes ds ++ entryCodes ds' := by
  simp [entryCodes]

namespace ZimCreator
variable {zc zc' : ZimCreator} {t : MimeTypes}

/-- The loop over the articles asks the maps for the mime types of the articles that are no
redirects, and keeps the codes in the entries. -/
theorem addArticles_codes {articles : List ArticleSource.Article}
    (h : articles.foldlM addArticle zc = .ok zc') (hrep : t.Represents zc.mimeTypes) :
    ∃ codes t', t.getMimeTypeIdxs (askedMimeTypes articles) = .ok (codes, t') ∧
      t'.Represents zc'.mimeTypes ∧ entryCodes zc'.dirents = entryCodes zc.dirents ++ codes := by
  induction articles generalizing zc t with
  | nil =>
    cases h
    exact ⟨[], t, rfl, hrep, (List.append_nil _).symm⟩
  | cons a articles ih =>
    rw [List.foldlM_cons] at h
    obtain ⟨zc₁, hstep, h⟩ := Fallible.bind_eq_ok.mp h
    unfold addArticle at hstep
    simp only at hstep
    by_cases ha : a.redirect = true
    · rw [if_pos ha] at hstep
      cases hstep
      obtain ⟨codes, t', hrun, hrep', hcodes⟩ := ih h hrep
      refine ⟨codes, t', ?_, hrep', ?_⟩
      · rw [askedMimeTypes_cons, if_pos ha, hrun]
      · rw [hcodes, entryCodes_append]
        simp [entryCodes, Dirent.setRedirect, Zim.Dirent.setRedirect, Zim.Dirent.isRedirect]
    · rw [if_neg ha] at hstep
      obtain ⟨⟨idx, zc₂⟩, hmime, hstep⟩ := Fallible.bind_eq_ok.mp hstep
      have hkept : zc₂.dirents = zc.dirents := by
        have hcount : zc.mimeTypes.length ≤ 0xffff := by
          have := hrep.next ▸ t.nextMimeIdx.toNat_lt
          omega
        obtain ⟨more, rfl, -⟩ := getMimeTypeIdx_ok hmime hcount
        rfl
      rcases hrep.getMimeTypeIdx a.mimeType with
        ⟨e, -, herror⟩ | ⟨idx', t₁, zc₂', hmap, hlist, hrep₁⟩
      · rw [hmime] at herror
        cases herror
      · rw [hmime, Except.ok.injEq, Prod.mk.injEq] at hlist
        obtain ⟨rfl, rfl⟩ := hlist
        cases hstep
        obtain ⟨codes, t', hrun, hrep', hcodes⟩ := ih h hrep₁
        refine ⟨idx :: codes, t', ?_, hrep', ?_⟩
        · rw [askedMimeTypes_cons, if_neg ha, MimeTypes.getMimeTypeIdxs, hmap]
          exact Fallible.bind_eq_ok.mpr ⟨_, rfl, Fallible.bind_eq_ok.mpr ⟨_, hrun, rfl⟩⟩
        · rw [hcodes, entryCodes_append, hkept, List.append_assoc]
          rfl

/-- A code is the position of its mime type, and not the mark of a redirect. -/
theorem entryCodes_made {mimeTypes : List Bytes} {articles : List ArticleSource.Article}
    {ds : List Dirent} (h : List.Forall₂ (Made mimeTypes) articles ds) :
    List.Forall₂ (fun m c => c ≠ 0xffff ∧ mimeTypes[c.toNat]? = some m)
      (askedMimeTypes articles) (entryCodes ds) := by
  induction h with
  | nil => exact .nil
  | @cons a d articles ds hmade _ ih =>
    rw [askedMimeTypes_cons]
    cases ha : a.redirect with
    | true =>
      have hd : d.isRedirect = true := hmade.redirect.trans ha
      simpa [entryCodes, hd] using ih
    | false =>
      have hd : d.isRedirect = false := hmade.redirect.trans ha
      obtain ⟨-, hmark, hmime⟩ := hmade.article ha
      have hcons : entryCodes (d :: ds) = d.getMimeType :: entryCodes ds := by
        simp [entryCodes, hd]
      rw [hcons]
      exact .cons ⟨hmark, hmime⟩ ih

section Archive
variable {std : StdSort} {build : Build} {md5 : Bytes → { bs : Bytes // bs.length = 16 }}
  {minChunkSize : UInt32} {compression : CompressionType} {src : ArticleSource} {tmpfile : Bytes}

/-- Behind the loop over the articles no mime types are added. -/
theorem prepare_collected
    (h : prepare std build minChunkSize compression src = .ok (zc, tmpfile)) :
    ∃ zc₁, src.articles.foldlM addArticle (new minChunkSize compression) = .ok zc₁ ∧
      zc.mimeTypes = zc₁.mimeTypes := by
  obtain ⟨zc₂, zc₃, hdirents, hclusters, rfl⟩ := prepare_ok h
  obtain ⟨-, -, -, hkept⟩ := createClusters_entries hclusters
  unfold createDirents at hdirents
  obtain ⟨zc₁, hcollect, hdirents⟩ := Fallible.bind_eq_ok.mp hdirents
  obtain ⟨_, -, hdirents⟩ := Fallible.bind_eq_ok.mp hdirents
  cases hdirents
  exact ⟨zc₁, hcollect, hkept⟩

end Archive

/-- A list of strings is read back as far as the first empty one. -/
theorem exists_takeWhile (l : List Bytes) (tail : Bytes) :
    ∃ rest, l.flatMap (fun m => m ++ [0]) ++ 0 :: tail =
      (l.takeWhile fun m => m ≠ []).flatMap (fun m => m ++ [0]) ++ 0 :: rest := by
  induction l with
  | nil => exact ⟨tail, rfl⟩
  | cons m l ih =>
    by_cases hm : m = []
    · exact ⟨l.flatMap (fun m => m ++ [0]) ++ 0 :: tail, by simp [hm]⟩
    · obtain ⟨rest, hrest⟩ := ih
      refine ⟨rest, ?_⟩
      rw [List.takeWhile_cons_of_pos (by simpa using hm), List.flatMap_cons, List.flatMap_cons,
        List.append_assoc, List.append_assoc, hrest]
      simp only [List.append_assoc]

/-- Codes that tell their strings apart, and none of which is the mark of a redirect. -/
structure Distinct (strings : List Bytes) (codes : List UInt16) : Prop where
  length : codes.length = strings.length
  eq_iff : ∀ p ∈ strings.zip codes, ∀ q ∈ strings.zip codes, p.2 = q.2 ↔ p.1 = q.1
  mark : 0xffff ∉ codes

theorem distinct_of {strings l : List Bytes} {codes : List UInt16} (hl : l.Nodup)
    (h : List.Forall₂ (fun m c => c ≠ 0xffff ∧ l[c.toNat]? = some m) strings codes) :
    Distinct strings codes := by
  obtain ⟨hlen, hpair⟩ := List.forall₂_iff_zip.mp h
  constructor
  · exact hlen.symm
  · rintro ⟨m, c⟩ hp ⟨m', c'⟩ hq
    have hm := (hpair hp).2
    have hm' := (hpair hq).2
    constructor
    · rintro rfl
      exact Option.some.inj (hm.symm.trans hm')
    · rintro rfl
      apply UInt16.toNat_inj.mp
      exact (List.getElem?_inj (List.getElem?_eq_some_iff.mp hm).1 hl).mp (hm.trans hm'.symm)
  · intro hmem
    obtain ⟨i, hi, hc⟩ := List.getElem_of_mem hmem
    exact (h.get (hlen ▸ hi) hi).1 hc

section Archive
variable {std : StdSort} {build : Build} {md5 : Bytes → { bs : Bytes // bs.length = 16 }}
  {minChunkSize : UInt32} {compression : CompressionType} {src : ArticleSource} {content : Bytes}
  {direntCache clusterCache : ℕ} {f : FileImpl}

/-- A reader has the mime types of the creator that come before an empty one. -/
theorem create_mimeTypes
    (hcreate : create std build md5 minChunkSize compression src = .ok content)
    (hopen : FileImpl.new build content direntCache clusterCache = .ok f)
    (hzero : ∀ m ∈ askedMimeTypes src.articles, 0 ∉ m) :
    ∃ zc, src.articles.foldlM addArticle (new minChunkSize compression) = .ok zc ∧
      f.mimeTypes = zc.mimeTypes.takeWhile (fun m => m ≠ []) ∧
      zc.mimeTypes ⊆ askedMimeTypes src.articles := by
  obtain ⟨zc, tmpfile, hprepare, hfilled, -, hwritten, hread⟩ := create_ok hcreate
  obtain ⟨zc₁, hcollect, hmime⟩ := prepare_collected hprepare
  have hsub : zc.mimeTypes ⊆ askedMimeTypes src.articles := by
    intro m hm
    obtain ⟨a, ha, hredirect, rfl⟩ := prepare_mimeTypes hprepare m hm
    exact List.mem_map_of_mem (List.mem_filter.mpr ⟨ha, by simp [hredirect]⟩)
  have hheader : f.header = zc.header := by
    have h := FileImpl.new_header hopen
    rw [hread] at h
    exact (Option.some.inj h).symm
  have hpos : f.header.mimeListPos.toNat = 80 := by
    rw [hheader, hfilled.mimeListPos]
    rfl
  obtain ⟨rest, hrest⟩ := exists_takeWhile zc.mimeTypes
    ((zc.parts build tmpfile).urlPtrs ++ (zc.parts build tmpfile).titleIdx ++
      (zc.parts build tmpfile).entries.flatten ++ (zc.parts build tmpfile).clusterPtrs ++
      (zc.parts build tmpfile).clusterData ++ (md5 (zc.parts build tmpfile).body).val)
  have hlist := drop_header hwritten
  rw [hrest] at hlist
  refine ⟨zc₁, hcollect, ?_, hmime ▸ hsub⟩
  rw [← hpos] at hlist
  rw [← hmime]
  apply FileImpl.new_mimeTypes hopen _ hlist
  intro m hm
  refine ⟨by simpa using List.mem_takeWhile_imp hm, hzero m (hsub ?_)⟩
  exact (List.takeWhile_sublist _).subset hm

theorem getMimeType_run (c : UInt16) : outcome (FileImpl.getMimeType c f) =
    if f.mimeTypes.length < c.toNat then .error (.mimeType c)
    else .ok f.mimeTypes[c.toNat]? := by
  simp only [FileImpl.getMimeType, bind_run, get_run]
  split_ifs <;> rfl

theorem getMimeType_iff (c : UInt16) (m : Bytes) :
    outcome (FileImpl.getMimeType c f) = .ok (some m) ↔ f.mimeTypes[c.toNat]? = some m := by
  rw [getMimeType_run]
  split_ifs with hc
  · rw [List.getElem?_eq_none hc.le]
    exact ⟨nofun, nofun⟩
  · exact ⟨fun h => Except.ok.inj h, fun h => congrArg Except.ok h⟩

/-- The codes of the mime types tell these apart, and lead to them in the archive exactly when
none of them is empty, which in the archive is the end of the list. -/
theorem create_getMimeType_iff
    (hcreate : create std build md5 minChunkSize compression src = .ok content)
    (hopen : FileImpl.new build content direntCache clusterCache = .ok f)
    (hzero : ∀ m ∈ askedMimeTypes src.articles, 0 ∉ m) :
    ∃ codes t zc,
      MimeTypes.new.getMimeTypeIdxs (askedMimeTypes src.articles) = .ok (codes, t) ∧
      src.articles.foldlM addArticle (new minChunkSize compression) = .ok zc ∧
      entryCodes zc.dirents = codes ∧ Distinct (askedMimeTypes src.articles) codes ∧
      ((∀ p ∈ (askedMimeTypes src.articles).zip codes,
          outcome (FileImpl.getMimeType p.2 f) = .ok (some p.1)) ↔
        [] ∉ askedMimeTypes src.articles) := by
  obtain ⟨zc, hcollect, hmimeTypes, hsub⟩ := create_mimeTypes hcreate hopen hzero
  obtain ⟨codes, t, hrun, hrep, hcodes⟩ := addArticles_codes hcollect MimeTypes.new_represents
  have hcodes' : entryCodes zc.dirents = codes := hcodes
  obtain ⟨ds, more, hzc, hmade, -⟩ := addArticles_made hcollect (Nat.zero_le _)
  have hds : zc.dirents = ds := congrArg ZimCreator.dirents hzc
  have hpairs := entryCodes_made hmade
  rw [← hds, hcodes'] at hpairs
  refine ⟨codes, t, zc, hrun, hcollect, hcodes', distinct_of hrep.nodup hpairs, ?_⟩
  obtain ⟨hlen, hpair⟩ := List.forall₂_iff_zip.mp hpairs
  simp only [getMimeType_iff, hmimeTypes]
  constructor
  · intro hall hempty
    obtain ⟨i, hi, hget⟩ := List.getElem_of_mem hempty
    have hi' : i < codes.length := hlen ▸ hi
    have hmem : ([], codes[i]) ∈ (askedMimeTypes src.articles).zip codes := by
      rw [← hget]
      exact List.mem_iff_getElem.mpr ⟨i, by simp [hi, hi'], by simp⟩
    have htake := List.mem_of_getElem? (hall _ hmem)
    simpa using List.mem_takeWhile_imp htake
  · intro hempty p hp
    have htake : zc.mimeTypes.takeWhile (fun m => m ≠ []) = zc.mimeTypes := by
      apply List.takeWhile_eq_self_iff.mpr
      intro m hm
      simp only [decide_eq_true_eq]
      rintro rfl
      exact hempty (hsub hm)
    rw [htake]
    exact (hpair hp).2

end Archive

/-- Two articles of one mime type behind an article of another one. -/
def threeArticles (mimeType : Bytes) : ArticleSource where
  articles := [⟨[1], 65, [97], [], false, mimeType, true, [], []⟩,
    ⟨[2], 65, [98], [], false, [116], true, [], []⟩,
    ⟨[3], 65, [99], [], false, [116], true, [], []⟩]
  getData aid := ⟨aid.take 9, by simp⟩
  uuid := zeroUuid
  mainPage := []
  layoutPage := []

theorem create_getMimeType_threeArticles :
    ∃ content f codes t,
      create .insertion .noCodecs zeroDigest 1 .zimcompNone (threeArticles [105]) = .ok content ∧
      FileImpl.new .noCodecs content 4 4 = .ok f ∧
      MimeTypes.new.getMimeTypeIdxs [[105], [116], [116]] = .ok (codes, t) ∧
      ∀ p ∈ [[105], [116], [116]].zip codes,
        outcome (FileImpl.getMimeType p.2 f) = .ok (some p.1) := by
  obtain ⟨content, hcreate⟩ := Fallible.exists_ok (x := create .insertion .noCodecs zeroDigest 1
    .zimcompNone (threeArticles [105])) (by decide +kernel)
  obtain ⟨f, hopen⟩ := Fallible.exists_ok (x := create .insertion .noCodecs zeroDigest 1
    .zimcompNone (threeArticles [105]) >>= fun content => FileImpl.new .noCodecs content 4 4)
    (by decide +kernel)
  rw [hcreate] at hopen
  obtain ⟨codes, t, -, hrun, -, -, -, hiff⟩ := create_getMimeType_iff hcreate hopen (by decide)
  exact ⟨content, f, codes, t, hcreate, hopen, hrun, hiff.mpr (by decide)⟩

/-- An empty mime type in front of the others: a reader knows none of the codes. -/
theorem not_create_getMimeType :
    ∃ content f, create .insertion .noCodecs zeroDigest 1 .zimcompNone (threeArticles []) =
        .ok content ∧ FileImpl.new .noCodecs content 4 4 = .ok f ∧
      (MimeTypes.new.getMimeTypeIdxs [[], [116], [116]]).map Prod.fst = .ok [0, 1, 1] ∧
      outcome (FileImpl.getMimeType 0 f) = .ok none ∧
      outcome (FileImpl.getMimeType 1 f) = .error (.mimeType 1) := by
  obtain ⟨content, hcreate⟩ := Fallible.exists_ok (x := create .insertion .noCodecs zeroDigest 1
    .zimcompNone (threeArticles [])) (by decide +kernel)
  obtain ⟨f, hopen⟩ := Fallible.exists_ok (x := create .insertion .noCodecs zeroDigest 1
    .zimcompNone (threeArticles []) >>= fun content => FileImpl.new .noCodecs content 4 4)
    (by decide +kernel)
  rw [hcreate] at hopen
  obtain ⟨zc, hcollect, hmimeTypes, -⟩ := create_mimeTypes hcreate hopen (by decide)
  have hzc : zc.mimeTypes = [[], [116]] := by
    have h : ((threeArticles []).articles.foldlM addArticle
        (new 1 .zimcompNone)).map (fun zc => zc.mimeTypes) = .ok [[], [116]] := by decide +kernel
    rw [hcollect] at h
    exact Except.ok.inj h
  have hnone : f.mimeTypes = [] := by
    rw [hmimeTypes, hzc]
    rfl
  refine ⟨content, f, hcreate, hopen, by decide +kernel, ?_, ?_⟩
  · rw [getMimeType_run, hnone]
    rfl
  · rw [getMimeType_run, hnone]
    rfl

end ZimCreator
end Zim.Writer
