import Zim.Lib.Fallible
import Zim.Reader.FullSearch

/-! The weights that `Search::search` (search.cpp) passes to `foundWord` and sums up. -/
namespace Zim.Search
open Cxx Stateful

/-- The integer that is meant by the expression for the weight of a hit. -/
def Hit.weight (hit : Hit) : ℤ :=
  match hit.origin with
  | .category cat => hit.plus + 3 - cat.val
  | .title size => hit.plus + 3 - size

def Hit.isFor (hit : Hit) (idx : UInt32) (word : Bytes) : Bool :=
  hit.articleIdx = idx && hit.word = word

/-- The attributes in the `wordList` of an article. -/
def Searching.attr (s : Searching) (idx : UInt32) (word : Bytes) : Option WordAttr :=
  (OrderedMap.find idx s.index).bind fun result => OrderedMap.find word result.wordList

/-- The sum of the weights that are passed for an article and a word. -/
def passed (calls : List Call) (idx : UInt32) (word : Bytes) : ℕ :=
  ((calls.filter fun call => call.hit.isFor idx word).map fun call => call.addweight.toNat).sum

/-- Every weight that is passed is the integer meant, and every sum is the sum of the integers. -/
structure Exact (s : Searching) : Prop where
  passed : ∀ call ∈ s.calls, (call.addweight.toNat : ℤ) = call.hit.weight
  summed : ∀ idx word attr, s.attr idx word = some attr →
    attr.addweight.toNat = 1 + Search.passed s.calls idx word

/-- The sum of the weights of the hits for an article and a word. -/
def total (hits : List Hit) (idx : UInt32) (word : Bytes) : ℤ :=
  ((hits.filter fun hit => hit.isFor idx word).map Hit.weight).sum

/-- No title is longer than the number of `'+'` allows, and the weights of the hits and their sums
are below 2^32. -/
structure Bounded (hits : List Hit) : Prop where
  title : ∀ hit ∈ hits, ∀ size, hit.origin = .title size → size ≤ hit.plus + 3
  weight : ∀ hit ∈ hits, hit.weight < 2 ^ 32
  total : ∀ idx word, 1 + Search.total hits idx word < 2 ^ 32

/-- No category is larger than 3, so that only a title may make a weight negative. -/
theorem weight_nonneg_iff (hit : Hit) :
    0 ≤ hit.weight ↔ ∀ size, hit.origin = .title size → size ≤ hit.plus + 3 := by
  obtain ⟨idx, word, plus, origin⟩ := hit
  cases origin with
  | category cat =>
    have hcat := cat.isLt
    refine iff_of_true ?_ fun size heq => ?_
    · change 0 ≤ (plus : ℤ) + 3 - cat.val
      omega
    · cases heq
  | title size =>
    change 0 ≤ (plus : ℤ) + 3 - size ↔ _
    constructor
    · intro hnonneg n heq
      cases heq
      dsimp only
      omega
    · intro hle
      have hsize : size ≤ plus + 3 := hle size rfl
      omega

theorem passed_append (calls : List Call) (call : Call) (idx : UInt32) (word : Bytes) :
    passed (calls ++ [call]) idx word =
      passed calls idx word + if call.hit.isFor idx word then call.addweight.toNat else 0 := by
  rw [passed, List.filter_append, List.map_append, List.sum_append, ← passed]
  cases hfor : call.hit.isFor idx word <;> simp [hfor]

/-- The sums agree where the weights do. -/
theorem passed_eq_total {calls : List Call}
    (h : ∀ call ∈ calls, (call.addweight.toNat : ℤ) = call.hit.weight) (idx : UInt32)
    (word : Bytes) : (passed calls idx word : ℤ) = total (calls.map Call.hit) idx word := by
  induction calls with
  | nil => rfl
  | cons call calls ih =>
    have hrest := ih fun c hc => h c (List.mem_cons_of_mem _ hc)
    have hcall := h call List.mem_cons_self
    rw [passed, total] at hrest ⊢
    rw [List.map_cons, List.filter_cons, List.filter_cons]
    split
    · rw [List.map_cons, List.map_cons, List.sum_cons, List.sum_cons, Nat.cast_add, hcall, hrest]
    · exact hrest

section FoundWord
variable (s : Searching) (hit : Hit) (article : Article) (pos addweight : UInt32)

/-- Only the attributes of the article and the word of the hit change. -/
theorem attr_foundWord (idx : UInt32) (word : Bytes) :
    ((s.foundWord hit article pos addweight).attr idx word = s.attr idx word ∧
        hit.isFor idx word = false) ∨
      ∃ count, (s.foundWord hit article pos addweight).attr idx word =
          some ⟨count, ((s.attr idx word).getD .new).addweight + addweight⟩ ∧
        hit.isFor idx word = true := by
  rw [Searching.attr, Searching.attr, Searching.foundWord, OrderedMap.find_put]
  by_cases hidx : idx = hit.articleIdx
  · subst hidx
    rw [if_pos rfl, Option.bind_some, FullResult.foundWord, OrderedMap.find_put]
    by_cases hword : word = hit.word
    · subst hword
      rw [if_pos rfl]
      cases OrderedMap.find hit.articleIdx s.index <;> exact .inr ⟨_, rfl, by simp [Hit.isFor]⟩
    · rw [if_neg hword]
      refine .inl ⟨?_, by simp [Hit.isFor, Ne.symm hword]⟩
      cases OrderedMap.find hit.articleIdx s.index <;> rfl
  · rw [if_neg hidx]
    exact .inl ⟨rfl, by simp [Hit.isFor, Ne.symm hidx]⟩

end FoundWord

/-- What holds of the weights modulo 2^32, whatever they are. -/
structure Consistent (s : Searching) : Prop where
  passed : ∀ call ∈ s.calls, (call.addweight.toNat : ℤ) = call.hit.weight % 2 ^ 32
  summed : ∀ idx word, ((s.attr idx word).getD .new).addweight =
    UInt32.ofNat (1 + Search.passed s.calls idx word)
  absent : ∀ idx word, s.attr idx word = none → Search.passed s.calls idx word = 0

theorem consistent_new (files : Files) : Consistent ⟨files, [], []⟩ :=
  ⟨fun _ hc => absurd hc List.not_mem_nil, fun _ _ => rfl, fun _ _ _ => rfl⟩

theorem Consistent.foundWord {s : Searching} (h : Consistent s) {hit : Hit} {addweight : UInt32}
    (hweight : (addweight.toNat : ℤ) = hit.weight % 2 ^ 32) (article : Article) (pos : UInt32) :
    Consistent (s.foundWord hit article pos addweight) := by
  have hcalls : (s.foundWord hit article pos addweight).calls = s.calls ++ [⟨hit, addweight⟩] := rfl
  refine ⟨fun call hcall => ?_, fun idx word => ?_, fun idx word hnone => ?_⟩
  · rw [hcalls, List.mem_append, List.mem_singleton] at hcall
    obtain hcall | rfl := hcall
    · exact h.passed call hcall
    · exact hweight
  · have hsum := h.summed idx word
    rw [hcalls, passed_append]
    obtain ⟨hattr, hfor⟩ | ⟨count, hattr, hfor⟩ :=
      attr_foundWord s hit article pos addweight idx word
    · rw [hattr, hfor, if_neg Bool.false_ne_true, Nat.add_zero, hsum]
    · rw [hattr, hfor, if_pos rfl, Option.getD_some, hsum, ← Nat.add_assoc,
        UInt32.ofNat_add (1 + _) addweight.toNat, UInt32.ofNat_toNat]
  · rw [hcalls, passed_append]
    obtain ⟨hattr, hfor⟩ | ⟨count, hattr, -⟩ :=
      attr_foundWord s hit article pos addweight idx word
    · rw [hfor, if_neg Bool.false_ne_true, Nat.add_zero]
      exact h.absent idx word (hattr ▸ hnone)
    · rw [hattr] at hnone
      cases hnone

theorem stripPlus_eq (addweight : UInt32) (token : Bytes) :
    stripPlus addweight token =
      (addweight + UInt32.ofNat (plusCount token), token.dropWhile (· = 0x2b)) := by
  induction token generalizing addweight with
  | nil => simp [stripPlus, plusCount]
  | cons ch token ih =>
    rw [stripPlus]
    by_cases hch : ch = 0x2b
    · have hcount : plusCount (ch :: token) = plusCount token + 1 := by simp [plusCount, hch]
      have hdrop : (ch :: token).dropWhile (· = 0x2b) = token.dropWhile (· = 0x2b) :=
        List.dropWhile_cons_of_pos (by simpa using hch)
      have hone : UInt32.ofNat 1 = 1 := rfl
      rw [if_pos hch, ih, hcount, hdrop, UInt32.ofNat_add, hone, UInt32.add_assoc,
        UInt32.add_comm 1]
    · have hcount : plusCount (ch :: token) = 0 := by simp [plusCount, hch]
      have hdrop : (ch :: token).dropWhile (· = 0x2b) = ch :: token :=
        List.dropWhile_cons_of_neg (by simpa using hch)
      have hzero : UInt32.ofNat 0 = 0 := rfl
      rw [if_neg hch, hcount, hdrop, hzero, UInt32.add_zero]

section Wrapped
variable (idx : UInt32) (word : Bytes) (plus : ℕ)

/-- The weight of the index path, modulo 2^32. -/
theorem category_weight (cat : Fin 4) :
    ((UInt32.ofNat plus + 3 - UInt32.ofNat cat).toNat : ℤ) =
      (Hit.mk idx word plus (.category cat)).weight % 2 ^ 32 := by
  have hcat := cat.isLt
  have hthree : (3 : UInt32).toNat = 3 := rfl
  change _ = ((plus : ℤ) + 3 - cat.val) % 2 ^ 32
  rw [UInt32.toNat_sub, UInt32.toNat_add, UInt32.toNat_ofNat', UInt32.toNat_ofNat',
    hthree]
  omega

/-- The weight of the title fallback, modulo 2^32. -/
theorem title_weight (size : ℕ) :
    (((UInt32.ofNat plus + 3).toUInt64 - UInt64.ofNat size).toUInt32.toNat : ℤ) =
      (Hit.mk idx word plus (.title size)).weight % 2 ^ 32 := by
  have hthree : (3 : UInt32).toNat = 3 := rfl
  change _ = ((plus : ℤ) + 3 - size) % 2 ^ 32
  rw [UInt64.toNat_toUInt32, UInt64.toNat_sub, UInt32.toNat_toUInt64, UInt32.toNat_add,
    UInt32.toNat_ofNat', UInt64.toNat_ofNat', hthree]
  omega

end Wrapped

section Search
variable {build : Build} {noOffset : Bool} {stale searchLimit : UInt32}

theorem onFiles_consistent {α : Type} (x : EStateM SearchError Files α) :
    Preserves Consistent (onFiles x) :=
  .within fun _ _ h => ⟨h.passed, h.summed, h.absent⟩

theorem searchToken_consistent (token : Bytes) :
    Preserves Consistent (searchToken build noOffset stale searchLimit token) := by
  rw [searchToken, stripPlus_eq]
  simp only [UInt32.zero_add]
  refine .ite (.pure _) (.bind (onFiles_consistent _) fun entries => .ite ?_ ?_)
  · exact .forM fun cat _ => .forM fun it _ => .modify fun _ h =>
      h.foundWord (category_weight _ _ _ _) _ _
  · exact .bind (onFiles_consistent _) fun results => .forM fun it _ =>
      .bind (onFiles_consistent _) fun size => .modify fun _ h =>
        h.foundWord (title_weight _ _ _ _) _ _

theorem searched_consistent (expr : Bytes) (files : Files) :
    Consistent (searched build noOffset stale searchLimit expr files) :=
  Preserves.forM (fun token _ => searchToken_consistent token) _ (consistent_new files)

/-- A search without its weights. -/
def Searching.listing (s : Searching) : Listing := ⟨s.files, s.calls.map Call.hit⟩

theorem onFiles_erases {α : Type} (x : EStateM SearchError Files α) :
    Erases Searching.listing (onFiles x) (listFiles x) :=
  .within (fun _ => rfl) fun _ _ => rfl

theorem foundWord_erases (hit : Hit) (article : Article) (pos addweight : UInt32) :
    Erases Searching.listing
      (modify fun s => s.foundWord hit article pos addweight : EStateM SearchError _ PUnit)
      (modify fun l => l.add hit) :=
  .modify fun s => by
    simp only [Searching.listing, Searching.foundWord, Listing.add, List.map_append, List.map_cons,
      List.map_nil]

theorem searchToken_erases (token : Bytes) :
    Erases Searching.listing (searchToken build noOffset stale searchLimit token)
      (listToken build noOffset stale searchLimit token) := by
  rw [searchToken, stripPlus_eq]
  refine .ite (.pure _) (.bind (onFiles_erases _) fun entries => .ite ?_ ?_)
  · exact .forM _ fun cat => .forM _ fun it => foundWord_erases _ _ _ _
  · exact .bind (onFiles_erases _) fun results => .forM _ fun it =>
      .bind (onFiles_erases _) fun size => foundWord_erases _ _ _ _

/-- The calls of a search are made for what the lookups find. -/
theorem searched_calls (expr : Bytes) (files : Files) :
    (searched build noOffset stale searchLimit expr files).calls.map Call.hit =
      hits build noOffset stale searchLimit expr files :=
  congrArg Listing.hits
    ((Erases.forM (tokens expr) fun token => searchToken_erases token) ⟨files, [], []⟩).2

end Search

/-- Weights that are known modulo 2^32 are exact where they are bounded. -/
theorem Consistent.exact_iff {s : Searching} (h : Consistent s) :
    Exact s ↔ Bounded (s.calls.map Call.hit) := by
  constructor
  · intro hexact
    refine ⟨fun hit hhit => ?_, fun hit hhit => ?_, fun idx word => ?_⟩
    · obtain ⟨call, hcall, rfl⟩ := List.mem_map.mp hhit
      rw [← weight_nonneg_iff, ← hexact.passed call hcall]
      exact Int.natCast_nonneg _
    · obtain ⟨call, hcall, rfl⟩ := List.mem_map.mp hhit
      have hlt := call.addweight.toNat_lt
      rw [← hexact.passed call hcall]
      omega
    · rw [← passed_eq_total hexact.passed]
      cases hattr : s.attr idx word with
      | none =>
        rw [h.absent idx word hattr]
        decide
      | some attr =>
        have hlt := attr.addweight.toNat_lt
        have hsum := hexact.summed idx word attr hattr
        omega
  · intro hbounded
    have hpassed (call : Call) (hcall : call ∈ s.calls) :
        (call.addweight.toNat : ℤ) = call.hit.weight := by
      have hmem : call.hit ∈ s.calls.map Call.hit := List.mem_map_of_mem hcall
      have hnonneg := (weight_nonneg_iff call.hit).mpr (hbounded.title _ hmem)
      rw [h.passed call hcall, Int.emod_eq_of_lt hnonneg (hbounded.weight _ hmem)]
    refine ⟨hpassed, fun idx word attr hattr => ?_⟩
    have hlt := hbounded.total idx word
    have hsum := h.summed idx word
    rw [← passed_eq_total hpassed] at hlt
    rw [hattr, Option.getD_some] at hsum
    rw [hsum, UInt32.toNat_ofNat_of_lt' (by simp only [UInt32.size]; omega)]

/-- Nothing compares the size of a title with the number of `'+'`: the weights of a search are
exact where those of its hits are bounded. -/
theorem searched_exact_iff (build : Build) (noOffset : Bool) (stale searchLimit : UInt32)
    (expr : Bytes) (files : Files) :
    Exact (searched build noOffset stale searchLimit expr files) ↔
      Bounded (hits build noOffset stale searchLimit expr files) := by
  rw [← searched_calls]
  exact (searched_consistent expr files).exact_iff

section Wraps

def longTitle : Zim.Dirent := { Zim.Dirent.new with ns := 65, url := [97, 98, 99, 100] }

/-- An archive with one article, whose title has four bytes. -/
def longTitleArchive : Bytes :=
  Fileheader.write .little
    { Fileheader.default with
      articleCount := 1, mimeListPos := 80, urlPtrPos := 81, titleIdxPos := 89,
      clusterPtrPos := 115, checksumPos := 115 } ++
  [0] ++ LittleEndian.encode 8 93 ++ LittleEndian.encode 4 0 ++ longTitle.write .little

/-- For the expression `abcd` the weight passed is 0 + 3 - 4 modulo 2^32. -/
theorem not_searched_exact : ∃ f, FileImpl.new .noCodecs longTitleArchive 2 2 = .ok f ∧
    ¬ Exact (searched .noCodecs false 0 10000 [97, 98, 99, 100] ⟨f, none⟩) := by
  have hcheck : Fallible.passes (FileImpl.new .noCodecs longTitleArchive 2 2) (fun f =>
      (searched .noCodecs false 0 10000 [97, 98, 99, 100] ⟨f, none⟩).calls.any
        fun call => (call.addweight.toNat : ℤ) ≠ call.hit.weight) = true := by decide +kernel
  obtain ⟨f, hnew, hany⟩ := Fallible.exists_of_passes hcheck
  obtain ⟨call, hcall, hne⟩ := List.any_eq_true.mp hany
  refine ⟨f, hnew, fun hexact => ?_⟩
  exact absurd (hexact.passed call hcall) (by simpa using hne)

end Wraps

end Zim.Search
