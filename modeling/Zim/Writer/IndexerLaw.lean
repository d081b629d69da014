import Zim.Writer.IndexerSource

/-! The article source of zimindexer over whole runs: whatever the order of the calls, it answers
with the words of the archive in order and with the data of their occurrences. -/
namespace OrderedMap
variable {κ ν ν' : Type} [LinearOrder κ]

theorem keys_put_congr {m : List (κ × ν)} {m' : List (κ × ν')} (h : keys m = keys m') (k : κ)
    (v : ν) (v' : ν') : keys (put k v m) = keys (put k v' m') := by
  induction m generalizing m' with
  | nil =>
    cases m' with
    | nil => rfl
    | cons e m' => cases h
  | cons e m ih =>
    cases m' with
    | nil => cases h
    | cons e' m' =>
      obtain ⟨j, w⟩ := e
      obtain ⟨j', w'⟩ := e'
      obtain ⟨rfl, hrest⟩ : j = j' ∧ keys m = keys m' := by simpa [keys] using h
      rw [put_cons, put_cons]
      have hsame := ih hrest
      unfold keys at hsame hrest ⊢
      split_ifs
      · simp only [List.map_cons, hrest]
      · simp only [List.map_cons, hsame]
      · simp only [List.map_cons, hrest]

end OrderedMap

namespace Zim.Writer
open Cxx Stateful Mstream Index Fallible

section Words

/-- The names of the streams that are written to, in order. -/
def wordsOf (writes : List WordWrite) : List Bytes :=
  OrderedMap.keys (writes.foldl (fun m w => OrderedMap.put w.1 () m) [])

theorem wordsOf_concat (writes : List WordWrite) (w : WordWrite) {ν : Type}
    {m : List (Bytes × ν)} (h : OrderedMap.keys m = wordsOf writes) (v : ν) :
    OrderedMap.keys (OrderedMap.put w.1 v m) = wordsOf (writes ++ [w]) := by
  rw [wordsOf, List.foldl_concat]
  exact OrderedMap.keys_put_congr h _ _ _

theorem mem_wordsOf {writes : List WordWrite} {word : Bytes} :
    word ∈ wordsOf writes ↔ ∃ w ∈ writes, w.1 = word := by
  induction writes using List.reverseRecOn with
  | nil => simp [wordsOf, OrderedMap.keys]
  | append_singleton writes w ih =>
    rw [wordsOf, List.foldl_concat, OrderedMap.mem_keys_put, ← wordsOf, ih]
    simp only [List.mem_append, List.mem_singleton]
    constructor
    · rintro (rfl | ⟨v, hv, rfl⟩)
      · exact ⟨w, .inr rfl, rfl⟩
      · exact ⟨v, .inl hv, rfl⟩
    · rintro ⟨v, hv | rfl, rfl⟩
      · exact .inr ⟨v, hv, rfl⟩
      · exact .inl rfl

theorem wordsOf_sorted (writes : List WordWrite) : (wordsOf writes).Pairwise (· < ·) := by
  induction writes using List.reverseRecOn with
  | nil => exact List.Pairwise.nil
  | append_singleton writes w ih =>
    rw [wordsOf, List.foldl_concat]
    exact OrderedMap.pairwise_keys_put ih _ _

/-- The arguments of `insertWord`, of which the weight is at most 3. -/
def occurrence (w : Wordentry) : Occurrence :=
  ⟨w.aid, w.pos, w.weight.toNat % 4, Nat.mod_lt _ (by decide)⟩

/-- The occurrences of a word in the order in which they are inserted. -/
def occurrences (writes : List WordWrite) (word : Bytes) : List Occurrence :=
  (writes.filter (·.1 = word)).map fun w => occurrence w.2

/-- What is written to the stream of a word. -/
def recordsOf (o : ByteOrder) (writes : List WordWrite) (word : Bytes) : Bytes :=
  (writes.filter (·.1 = word)).flatMap fun w => w.2.bytes o

/-- Each weight is one of the four. -/
def Weighted (writes : List WordWrite) : Prop := ∀ w ∈ writes, w.2.weight.toNat < 4

theorem records_occurrences (o : ByteOrder) {writes : List WordWrite} (h : Weighted writes)
    (word : Bytes) : Occurrence.records o (occurrences writes word) = recordsOf o writes word := by
  rw [Occurrence.records, occurrences, recordsOf, List.flatMap_map]
  refine List.flatMap_congr fun w hw => ?_
  have hlt := h w (List.mem_of_mem_filter hw)
  have hweight : UInt8.ofNat (w.2.weight.toNat % 4) = w.2.weight := by
    rw [Nat.mod_eq_of_lt hlt, UInt8.ofNat_toNat]
  simp only [Occurrence.toWordentry, occurrence, hweight]

theorem occurrences_ne_nil {writes : List WordWrite} {word : Bytes} :
    occurrences writes word ≠ [] ↔ word ∈ wordsOf writes := by
  rw [mem_wordsOf, occurrences, Ne, List.map_eq_nil_iff, List.filter_eq_nil_iff]
  push Not
  simp

theorem insertUnlessTrivial_weighted (z : Zimindexer) (word : Bytes) {weight : UInt8}
    (hweight : weight.toNat < 4) (pos : UInt32) :
    Weighted (z.insertUnlessTrivial word weight pos) := by
  unfold Zimindexer.insertUnlessTrivial Zimindexer.insertWord
  split_ifs
  · exact fun w hw => by cases hw
  · intro w hw
    rw [List.mem_singleton.mp hw]
    exact hweight

theorem onWord_weighted (z : Zimindexer) (word : Bytes) (pos : UInt32) :
    Weighted (z.onWord word pos) := by
  unfold Zimindexer.onWord
  split_ifs
  · exact insertUnlessTrivial_weighted z word (by decide) pos
  · exact insertUnlessTrivial_weighted z word (by decide) pos
  · exact insertUnlessTrivial_weighted z word (by decide) pos
  · exact insertUnlessTrivial_weighted z word (by decide) pos
  · refine insertUnlessTrivial_weighted z word ?_ pos
    split_ifs <;> decide

theorem handle_weighted (z : Zimindexer) (events : List ParseEvent) :
    Weighted (z.handle events).2 := by
  induction events generalizing z with
  | nil => exact fun w hw => by cases hw
  | cons event events ih =>
    cases event with
    | onTag tag pos => exact ih _
    | onEndtag tag pos => exact ih _
    | onWord word pos =>
      intro w hw
      rcases List.mem_append.mp hw with hw | hw
      · exact onWord_weighted z word pos w hw
      · exact ih z w hw

variable (zimIsalnum : UInt32 → Bool)

theorem process_weighted (z : Zimindexer) (a : Article) :
    Weighted (z.process zimIsalnum a).2 := by
  intro w hw
  rcases List.mem_append.mp hw with hw | hw
  · exact handle_weighted _ _ w hw
  · exact handle_weighted _ _ w hw

/-- The calls of `insertWord` for the articles of an archive. -/
def indexWrites (z : Zimindexer) (as : List (Option Article)) : List WordWrite :=
  (z.run zimIsalnum as.reduceOption).flatten

theorem indexWrites_none (z : Zimindexer) (as : List (Option Article)) :
    indexWrites zimIsalnum z (none :: as) = indexWrites zimIsalnum z as := rfl

theorem indexWrites_some (z : Zimindexer) (a : Article) (as : List (Option Article)) :
    indexWrites zimIsalnum z (some a :: as) =
      (z.process zimIsalnum a).2 ++ indexWrites zimIsalnum (z.process zimIsalnum a).1 as := rfl

theorem indexWrites_weighted (z : Zimindexer) (as : List (Option Article)) :
    Weighted (indexWrites zimIsalnum z as) := by
  induction as generalizing z with
  | nil => exact fun w hw => by cases hw
  | cons a as ih =>
    cases a with
    | none => exact ih z
    | some a =>
      intro w hw
      rw [indexWrites_some] at hw
      rcases List.mem_append.mp hw with hw | hw
      · exact process_weighted zimIsalnum z a w hw
      · exact ih _ w hw

end Words

section Writes
variable {o : ByteOrder} {uninit : Page} {m : StreamMap} {pages : List Page}
  {cells : Bytes → List (ℕ × Page)} {total : ℕ}

theorem write_mstream {m₁ : MStream} {name bs : Bytes}
    (h : m.mstream.write o minBuffersize maxBuffersize uninit name bs = .ok m₁) :
    ∃ s, m.write o uninit name bs = .ok ⟨OrderedMap.put name s m.streams, m₁.pagefile⟩ ∧
      m₁ = (StreamMap.mk (OrderedMap.put name s m.streams) m₁.pagefile).mstream := by
  obtain ⟨⟨s, f⟩, hw, h⟩ := bind_eq_ok.mp h
  cases h
  refine ⟨s, ?_, ?_⟩
  · rw [StreamMap.write]
    exact bind_eq_ok.mpr ⟨(s, f), hw, rfl⟩
  · simp only [StreamMap.mstream, MStream.mk.injEq, and_true]
    funext b
    rw [OrderedMap.find_put, Function.update_apply]
    split_ifs <;> rfl

theorem writeAll_append (writes writes' : List WordWrite) :
    m.writeAll o uninit (writes ++ writes') =
      m.writeAll o uninit writes >>= fun m => m.writeAll o uninit writes' := by
  induction writes generalizing m with
  | nil => rfl
  | cons w writes ih =>
    obtain ⟨word, w⟩ := w
    simp only [List.cons_append, StreamMap.writeAll, bind_assoc, ih]

/-- The calls of `insertWord` behind others leave the records of all of them. -/
theorem writeAll_inv (uninit : Page) (done writes : List WordWrite)
    (h : Inv o m.mstream (recordsOf o done) pages cells) (hpaid : Paid m.mstream pages total)
    (hnames : m.names = wordsOf done) (hfew : total + 9 * writes.length < 1152 * (2 ^ 32 - 1)) :
    ∃ m' pages' cells', m.writeAll o uninit writes = .ok m' ∧
      Inv o m'.mstream (recordsOf o (done ++ writes)) pages' cells' ∧
      m'.names = wordsOf (done ++ writes) := by
  induction writes generalizing m pages cells total done with
  | nil => exact ⟨m, pages, cells, rfl, by rwa [List.append_nil], by rwa [List.append_nil]⟩
  | cons w writes ih =>
    obtain ⟨word, w⟩ := w
    rw [List.length_cons] at hfew
    have hlen : (w.bytes o).length = 9 := Wordentry.bytes_length o w
    obtain ⟨m₁, pages₁, cells₁, hw, h₁, hpaid₁⟩ :=
      h.write_paid uninit hpaid word (w.bytes o) (by omega)
    obtain ⟨s, hmap, hsame⟩ := write_mstream hw
    rw [hsame] at h₁ hpaid₁
    rw [hlen] at hpaid₁
    have hrecords : Function.update (recordsOf o done) word (recordsOf o done word ++ w.bytes o) =
        recordsOf o (done ++ [(word, w)]) := by
      funext b
      by_cases hb : b = word
      · subst hb
        simp [recordsOf]
      · rw [Function.update_of_ne hb]
        simp [recordsOf, Ne.symm hb]
    rw [hrecords] at h₁
    obtain ⟨m', pages', cells', hall, hinv, hkeys⟩ := ih (done ++ [(word, w)]) h₁ hpaid₁
      (wordsOf_concat done (word, w) hnames s) (by omega)
    rw [List.append_assoc, List.singleton_append] at hinv hkeys
    refine ⟨m', pages', cells', ?_, hinv, hkeys⟩
    simp only [StreamMap.writeAll, hmap, bind, Except.bind, hall]

end Writes

namespace Indexer

section Loop
variable {build : Build} {zimIsalnum : UInt32 → Bool} {o : ByteOrder} {uninit : Page}
  {P : FileImpl → Prop} {as : List (Option Article)}

theorem onFile_runs {α : Type} {x : FileImpl.M α} {a : α} (h : Runs P x (.ok a) P) :
    Runs P (onFile x) (.ok a) P := Runs.within (fun _ _ => rfl) h

/-- From an article on, the loop passes on what is given for it and those behind it. -/
theorem createIndexLoop_runs (hcount : ∀ f, P f → f.getCountArticles.toNat = as.length)
    (hread : ∀ i a, as[i.toNat]? = some a → Runs P (articleToIndex build ⟨i⟩) (.ok a) P)
    (hlen : as.length < 2 ^ 32) (turns : ℕ) (i : UInt32) (hi : i.toNat ≤ as.length)
    (hturns : as.length - i.toNat < turns)
    (z : Zimindexer) {m m' : StreamMap}
    (hm : m.writeAll o uninit (indexWrites zimIsalnum z (as.drop i.toNat)) = .ok m') :
    Runs P (createIndexLoop build zimIsalnum o uninit turns (.new i .urlIterator) z m) (.ok m')
      P := by
  have hend (i : UInt32) : Runs P (do (ConstIterator.new i .urlIterator).eq (← File.endIterator))
      (.ok (decide (as.length ≤ i.toNat))) P := by
    intro f hf
    rw [Search.eq_end_run]
    refine ⟨congrArg Except.ok (decide_eq_decide.mpr ?_), hf⟩
    rw [UInt32.le_iff_toNat_le, hcount f hf]
    rfl
  induction turns generalizing i z m with
  | zero => omega
  | succ turns ih =>
    refine (onFile_runs (hend i)).bind ?_
    rcases Nat.lt_or_ge i.toNat as.length with hlt | hge
    · rw [decide_eq_false (not_le.mpr hlt), if_neg Bool.false_ne_true,
        SearchSource.deref_onUrls ⟨rfl, .inl rfl⟩]
      refine (onFile_runs (.pure fun _ h => h)).bind ?_
      refine (hread i _ (List.getElem?_eq_getElem hlt)).bind ?_
      have hnext : (i + 1).toNat = i.toNat + 1 := by
        rw [UInt32.toNat_add, UInt32.toNat_one, Nat.mod_eq_of_lt (by omega)]
      rw [List.drop_eq_getElem_cons hlt] at hm
      cases ha : as[i.toNat] with
      | none =>
        rw [ha, indexWrites_none, ← hnext] at hm
        exact ih (i + 1) (by omega) (by omega) z hm
      | some a =>
        rw [ha, indexWrites_some, writeAll_append, ← hnext] at hm
        obtain ⟨m₁, hm₁, hm⟩ := bind_eq_ok.mp hm
        simp only [hm₁]
        exact ih (i + 1) (by omega) (by omega) _ hm
    · rw [decide_eq_true hge, if_pos rfl]
      rw [List.drop_eq_nil_of_le hge] at hm
      cases hm
      exact .pure fun _ h => h

/-- `createIndex` leaves the records of all words. -/
theorem createIndex_runs (o : ByteOrder) (uninit : Page) {f : FileImpl} (hf : P f)
    (hcount : ∀ f, P f → f.getCountArticles.toNat = as.length)
    (hread : ∀ i a, as[i.toNat]? = some a → Runs P (articleToIndex build ⟨i⟩) (.ok a) P)
    {trivialWordsFile : Option (Option Bytes)} {trivial : List Bytes}
    (htrivial : ∀ f, trivialWords trivialWordsFile f = .ok trivial f)
    (hfew : 9 * (indexWrites zimIsalnum (.new trivial) as).length < 1152 * (2 ^ 32 - 1)) :
    ∃ x pages cells,
      Runs P (createIndex build zimIsalnum o uninit trivialWordsFile) (.ok x) P ∧
      Inv o x.streams.mstream (recordsOf o (indexWrites zimIsalnum (.new trivial) as)) pages cells ∧
      x.streams.names = wordsOf (indexWrites zimIsalnum (.new trivial) as) ∧
      x.currentStream = none := by
  have hlen : as.length < 2 ^ 32 := hcount f hf ▸ UInt32.toNat_lt _
  have hempty : Inv o StreamMap.empty.mstream (recordsOf o []) [] (fun _ => []) := Inv.empty
  obtain ⟨m, pages, cells, hall, hinv, hnames⟩ :=
    writeAll_inv uninit [] (indexWrites zimIsalnum (.new trivial) as) hempty paid_empty rfl
      (by omega)
  refine ⟨⟨m, ⟨[], []⟩, none, [], []⟩, pages, cells, ?_, hinv, hnames, rfl⟩
  have hwords : Runs P (trivialWords trivialWordsFile) (.ok trivial) P := by
    intro f hf
    rw [htrivial f]
    exact ⟨rfl, hf⟩
  refine hwords.bind (.get_bind fun f hf => ?_)
  refine .bind (createIndexLoop_runs hcount hread hlen _ 0 (Nat.zero_le _) ?_ _ hall)
    (.pure fun _ h => h)
  rw [hcount f hf]
  exact Nat.lt_succ_of_le (Nat.sub_le _ _)

end Loop

section Calls
variable {o : ByteOrder} {writes : List WordWrite} {x : Indexer}

/-- The indexer has the records of the words. -/
structure Holds (o : ByteOrder) (x : Indexer) (writes : List WordWrite) : Prop where
  streams : ∃ pages cells, Inv o x.streams.mstream (recordsOf o writes) pages cells
  names : x.streams.names = wordsOf writes

/-- The categories of a word. -/
def entriesOf (writes : List WordWrite) (word : Bytes) : Categories :=
  Occurrence.ofWeight (occurrences writes word)

/-- The article of a word. -/
def articleOf (writes : List WordWrite) (word : Bytes) : IndexArticle :=
  ⟨word, Index.currentParameter (entriesOf writes word)⟩

/-- The data of a word is fetched, and the streams are kept. -/
theorem fetchData_holds (h : x.Holds o writes) (hweights : Weighted writes) {word : Bytes}
    (hword : word ∈ wordsOf writes) (hsize : 9 * (occurrences writes word).length < 2 ^ 32) :
    ∃ x', x.fetchData o word = .ok x' ∧ x'.Holds o writes ∧
      x'.currentStream = x.currentStream ∧
      x'.currentZData = Index.currentZData (entriesOf writes word) ∧
      x'.currentParameter = Index.currentParameter (entriesOf writes word) := by
  obtain ⟨pages, cells, hinv⟩ := h.streams
  obtain ⟨m', hread, hinv', -⟩ := hinv.read word
  have hsome : (OrderedMap.find word x.streams.streams).isSome :=
    OrderedMap.find_isSome_iff.mpr (show word ∈ x.streams.names from h.names ▸ hword)
  obtain ⟨s, hs⟩ := Option.isSome_iff_exists.mp hsome
  have hstream : x.streams.mstream.streams word = some s := hs
  simp only [MStream.read, hstream] at hread
  obtain ⟨⟨str, f⟩, hr, hread⟩ := bind_eq_ok.mp hread
  cases hread
  have hfetch := fetchData_records o (occurrences writes word) hsize
  rw [records_occurrences o hweights] at hfetch
  have hr' : s.read o x.streams.pagefile = .ok (recordsOf o writes word, f) := hr
  exact ⟨{ x with
      streams := { x.streams with pagefile := f }
      currentZData := Index.currentZData (entriesOf writes word)
      currentParameter := Index.currentParameter (entriesOf writes word) },
    by simp only [Indexer.fetchData, hs, hr', hfetch, entriesOf],
    ⟨⟨pages, cells, hinv'⟩, h.names⟩, rfl, rfl, rfl⟩

/-- The calls that a user of an article source makes. -/
inductive Call where
  | getNextArticle
  | getData (aid : Bytes)

inductive Answer where
  | article (a : Option ArticleSource.Article)
  | data (b : Blob)

def step (o : ByteOrder) (x : Indexer) : Call → Except IndexerError (Answer × Indexer)
  | .getNextArticle => do
    let (a, x) ← x.getNextArticle o
    .ok (.article a, x)
  | .getData aid => do
    let (b, x) ← x.getData o aid
    .ok (.data b, x)

/-- The answers to calls one after another. -/
def run (o : ByteOrder) (x : Indexer) : List Call → Except IndexerError (List Answer)
  | [] => .ok []
  | call :: calls => do
    let (answer, x) ← x.step o call
    let answers ← run o x calls
    .ok (answer :: answers)

/-- The articles of the words in order, and the data that the writer gets for each. -/
def source (writes : List WordWrite) (uuid : Uuid) : ArticleSource where
  articles := (wordsOf writes).map fun word => (articleOf writes word).article
  getData word := ⟨Index.dataBlob (Index.currentZData (entriesOf writes word)), dataBlob_lt _⟩
  uuid := uuid
  mainPage := []
  layoutPage := []

/-- The answers of a source whose articles are returned one after another, and from the first one
again behind the last one. `pos` is the number of the next article. -/
def answers (src : ArticleSource) (pos : ℕ) : List Call → List Answer
  | [] => []
  | .getNextArticle :: calls =>
    .article src.articles[pos]? ::
      answers src (if pos < src.articles.length then pos + 1 else 0) calls
  | .getData aid :: calls => .data (src.getData aid) :: answers src pos calls

/-- `currentStream` is in front of the article with the number `pos`. -/
def At (x : Indexer) (writes : List WordWrite) (pos : ℕ) : Prop :=
  match pos with
  | 0 => x.currentStream = none
  | i + 1 => ∃ word, (wordsOf writes)[i]? = some word ∧ x.currentStream = some word

theorem At.next {pos : ℕ} (hat : x.At writes pos) (hnames : x.streams.names = wordsOf writes) :
    x.nextStream = (wordsOf writes)[pos]? := by
  unfold nextStream
  cases pos with
  | zero =>
    rw [show x.currentStream = none from hat]
    simp only [StreamMap.begin, hnames, List.head?_eq_getElem?]
  | succ i =>
    obtain ⟨word, hword, hcurrent⟩ := hat
    have hkeys : OrderedMap.keys x.streams.streams = wordsOf writes := hnames
    rw [hcurrent]
    simp only [StreamMap.next]
    rw [OrderedMap.next_getElem (hkeys ▸ wordsOf_sorted writes) (hkeys ▸ hword), hkeys]

/-- A call is answered as by the source. -/
theorem step_answers (h : x.Holds o writes) (hweights : Weighted writes) {pos : ℕ}
    (hat : x.At writes pos) (hsize : ∀ word, 9 * (occurrences writes word).length < 2 ^ 32)
    (uuid : Uuid) (call : Call) (hcall : ∀ aid, call = .getData aid → aid ∈ wordsOf writes) :
    ∃ answer x' pos', x.step o call = .ok (answer, x') ∧ x'.Holds o writes ∧
      x'.At writes pos' ∧ ∀ calls, answers (source writes uuid) pos (call :: calls) =
        answer :: answers (source writes uuid) pos' calls := by
  have hlen : (source writes uuid).articles.length = (wordsOf writes).length := List.length_map _
  cases call with
  | getNextArticle =>
    have hnext := hat.next h.names
    cases hword : (wordsOf writes)[pos]? with
    | none =>
      rw [hword] at hnext
      have hge := List.getElem?_eq_none_iff.mp hword
      refine ⟨.article none, { x with currentStream := none }, 0, ?_, ⟨h.streams, h.names⟩, rfl,
        fun calls => ?_⟩
      · simp only [step, getNextArticle, hnext, bind, Except.bind]
      · rw [answers, if_neg (by omega), List.getElem?_eq_none (by omega)]
    | some word =>
      rw [hword] at hnext
      obtain ⟨hlt, -⟩ := List.getElem?_eq_some_iff.mp hword
      obtain ⟨x', hfetch, h', hcurrent, -, hparameter⟩ :=
        fetchData_holds (x := { x with currentStream := some word }) ⟨h.streams, h.names⟩ hweights
          (List.mem_of_getElem? hword) (hsize word)
      refine ⟨.article (articleOf writes word).article,
        { x' with currentArticle := articleOf writes word }, pos + 1, ?_,
        ⟨h'.streams, h'.names⟩, ⟨word, hword, hcurrent⟩, fun calls => ?_⟩
      · simp only [step, getNextArticle, hnext, hfetch, bind, Except.bind, hparameter, articleOf]
      · have harticle : (source writes uuid).articles[pos]? =
            some (articleOf writes word).article := by
          rw [source, List.getElem?_map, hword]
          rfl
        rw [answers, if_pos (by omega), harticle]
  | getData aid =>
    have haid := hcall aid rfl
    obtain ⟨x', hfetch, h', hcurrent, hzdata, -⟩ := fetchData_holds h hweights haid (hsize aid)
    refine ⟨.data ((source writes uuid).getData aid), x', pos, ?_, h', ?_, fun calls => rfl⟩
    · simp only [step, getData, hfetch, bind, Except.bind, hzdata, source]
    · cases pos with
      | zero => exact hcurrent.trans hat
      | succ i =>
        obtain ⟨word, hword, hword'⟩ := hat
        exact ⟨word, hword, hcurrent.trans hword'⟩

theorem run_answers (h : x.Holds o writes) (hweights : Weighted writes) (pos : ℕ)
    (hat : x.At writes pos) (hsize : ∀ word, 9 * (occurrences writes word).length < 2 ^ 32)
    (uuid : Uuid) (calls : List Call)
    (hcalls : ∀ aid, .getData aid ∈ calls → aid ∈ wordsOf writes) :
    x.run o calls = .ok (answers (source writes uuid) pos calls) := by
  induction calls generalizing x pos with
  | nil => rfl
  | cons call calls ih =>
    obtain ⟨answer, x', pos', hstep, h', hat', hanswer⟩ := step_answers h hweights hat hsize uuid
      call fun aid hcall => hcalls aid (hcall ▸ List.mem_cons_self)
    have hrest := ih h' pos' hat' fun aid hcall => hcalls aid (List.mem_cons_of_mem _ hcall)
    simp only [run, hstep, hrest, bind, Except.bind, hanswer]

end Calls

end Indexer
end Zim.Writer
