import Zim.Format.ZInt
import Zim.Lib.DeltaCode
import Mathlib.Data.UInt

/-! `Indexer::fetchData` (indexersource.cpp): the compressed index of one word, from the
nine-byte records that `Zimindexer::insertWord` appended to the word's stream. -/
namespace Zim.Index
open Cxx

/-- `Zimindexer::Wordentry`. -/
structure Wordentry where
  aid : UInt32
  pos : UInt32
  weight : UInt8
  deriving DecidableEq, Repr

namespace Wordentry

def size : ℕ := 9

/-- The bytes of a record as `insertWord` writes them. -/
def bytes (o : ByteOrder) (w : Wordentry) : Bytes :=
  o.memory 4 w.aid.toNat ++ (o.memory 4 w.pos.toNat ++ [w.weight])

/-- `reinterpret_cast<const Wordentry&>`; nothing when the record is not inside the data. -/
def ofBytes (o : ByteOrder) (bs : Bytes) : Option Wordentry :=
  match (bs.drop 8).head? with
  | none => none
  | some weight =>
    some ⟨UInt32.ofNat (o.value (bs.take 4)), UInt32.ofNat (o.value ((bs.drop 4).take 4)), weight⟩

@[simp] theorem bytes_length (o : ByteOrder) (w : Wordentry) : (w.bytes o).length = size := by
  simp [bytes, size]

theorem ofBytes_bytes (o : ByteOrder) (w : Wordentry) (rest : Bytes) :
    ofBytes o (w.bytes o ++ rest) = some w := by
  have h8 : (w.bytes o ++ rest).drop 8 = w.weight :: rest := by
    simp [bytes, List.drop_append]
  have h4 : (w.bytes o ++ rest).take 4 = o.memory 4 w.aid.toNat := by simp [bytes]
  have h44 : ((w.bytes o ++ rest).drop 4).take 4 = o.memory 4 w.pos.toNat := by simp [bytes]
  simp [ofBytes, h8, h4, h44]

end Wordentry

/-- `IndexEntry` of the writer, which has the fields of `IndexArticle::Entry` of the reader. -/
structure IndexEntry where
  index : UInt32
  pos : UInt32
  deriving DecidableEq, Repr

/-- An array of four lists, one for each weight. -/
abbrev Categories := Fin 4 → List IndexEntry

def Categories.push (cd : Categories) (c : Fin 4) (e : IndexEntry) : Categories :=
  Function.update cd c (cd c ++ [e])

/-- `for (unsigned off = 0; off < data.size(); off += Wordentry::size)`. There is no result
when the turns run out, or when an access leaves the data or the array of categories. -/
def collect (o : ByteOrder) (data : Bytes) : ℕ → UInt32 → Categories → Option Categories
  | 0, _, _ => none
  | turns + 1, off, currentData =>
    if off.toNat < data.length then
      match Wordentry.ofBytes o (data.drop off.toNat) with
      | none => none
      | some w =>
        if h : w.weight.toNat < 4 then
          collect o data turns (off + 9) (currentData.push ⟨w.weight.toNat, h⟩ ⟨w.aid, w.pos⟩)
        else none
    else some currentData

/-- The loop over the entries of a category behind its first one. -/
def compress (lastidx lastpos : UInt32) : List IndexEntry → Bytes
  | [] => []
  | e :: rest =>
    let idx := e.index - lastidx
    let pos := if idx = 0 then e.pos - lastpos else e.pos
    let lastidx := if idx = 0 then lastidx else e.index
    ZInt.put idx ++ (ZInt.put pos ++ compress lastidx e.pos rest)

/-- `zdata[c]`: everything but the first entry of the category. -/
def zdata (entries : List IndexEntry) : Bytes := compress 0 0 entries.tail

/-- `flags`: one bit for each category that is not empty. -/
def flags (currentData : Categories) : UInt32 :=
  (if (currentData 0).isEmpty then 0 else 1) ||| (if (currentData 1).isEmpty then 0 else 2) |||
    (if (currentData 2).isEmpty then 0 else 4) ||| (if (currentData 3).isEmpty then 0 else 8)

/-- The length, which is put as a 32-bit value, and the first entry of a category. -/
def firstEntry (entries : List IndexEntry) : Bytes :=
  match entries with
  | [] => []
  | e :: _ =>
    ZInt.put (UInt32.ofNat (zdata entries).length) ++ (ZInt.put e.index ++ ZInt.put e.pos)

def categories : List (Fin 4) := [0, 1, 2, 3]

theorem mem_categories : ∀ c, c ∈ categories := by decide

/-- `_currentParameter`. -/
def currentParameter (currentData : Categories) : Bytes :=
  ZInt.put (flags currentData) ++ categories.flatMap (fun c => firstEntry (currentData c))

/-- `_currentZData`. -/
def currentZData (currentData : Categories) : Bytes :=
  categories.flatMap (fun c => zdata (currentData c))

/-- `Indexer::fetchData` behind the lookup of the word: the parameter and the compressed
data. Every turn of the first loop advances by a record, so a run that ends does so within
`data.length + 1` turns. -/
def fetchData (o : ByteOrder) (data : Bytes) : Option (Bytes × Bytes) :=
  (collect o data (data.length + 1) 0 (fun _ => [])).map fun currentData =>
    (currentParameter currentData, currentZData currentData)

/-- The blob `Indexer::getData` makes of the data, with its 32-bit size. -/
def dataBlob (zdata : Bytes) : Bytes := zdata.take (zdata.length % 2 ^ 32)

/-- One occurrence of a word: the arguments of `insertWord`, which is called with the
weights 0 to 3 only. -/
structure Occurrence where
  aid : UInt32
  pos : UInt32
  weight : Fin 4
  deriving DecidableEq, Repr

namespace Occurrence

def toWordentry (w : Occurrence) : Wordentry := ⟨w.aid, w.pos, UInt8.ofNat w.weight.val⟩

def entry (w : Occurrence) : IndexEntry := ⟨w.aid, w.pos⟩

/-- The stream of a word after its occurrences were inserted one after another. -/
def records (o : ByteOrder) (ws : List Occurrence) : Bytes :=
  ws.flatMap fun w => w.toWordentry.bytes o

/-- The entries of one weight in the order of insertion. -/
def ofWeight (ws : List Occurrence) : Categories :=
  fun c => (ws.filter fun w => w.weight = c).map entry

@[simp] theorem records_length (o : ByteOrder) (ws : List Occurrence) :
    (records o ws).length = 9 * ws.length := by
  induction ws with
  | nil => rfl
  | cons w ws ih =>
    simp only [records, List.flatMap_cons, List.length_append, Wordentry.bytes_length,
      List.length_cons] at ih ⊢
    rw [ih, Wordentry.size]
    omega

theorem ofWeight_append_singleton (ws : List Occurrence) (w : Occurrence) :
    ofWeight (ws ++ [w]) = (ofWeight ws).push w.weight w.entry := by
  funext c
  by_cases h : c = w.weight
  · subst h
    simp [ofWeight, Categories.push]
  · have h' : ¬ w.weight = c := fun e => h e.symm
    simp [ofWeight, Categories.push, h, h']

end Occurrence

open Occurrence

/-- One turn of the first loop takes the next record. -/
theorem collect_step (o : ByteOrder) (done : List Occurrence) (w : Occurrence)
    (rest : List Occurrence) (turns : ℕ) (hsize : 9 * (done ++ w :: rest).length < 2 ^ 32) :
    collect o (records o (done ++ w :: rest)) (turns + 1) (UInt32.ofNat (9 * done.length))
        (ofWeight done) =
      collect o (records o (done ++ w :: rest)) turns (UInt32.ofNat (9 * (done ++ [w]).length))
        (ofWeight (done ++ [w])) := by
  have hlen : (done ++ w :: rest).length = done.length + (rest.length + 1) := by simp
  have hoff : (UInt32.ofNat (9 * done.length)).toNat = 9 * done.length := by
    simp only [UInt32.toNat_ofNat']
    omega
  have hlt : 9 * done.length < (records o (done ++ w :: rest)).length := by
    rw [records_length]
    omega
  have hdrop : (records o (done ++ w :: rest)).drop (9 * done.length) =
      w.toWordentry.bytes o ++ records o rest := by
    rw [← records_length o done, records, records, List.flatMap_append, List.drop_left]
    rfl
  have hweight : w.toWordentry.weight.toNat = w.weight.val := by
    have := w.weight.isLt
    simp only [toWordentry, UInt8.toNat_ofNat']
    omega
  have hnext : UInt32.ofNat (9 * done.length) + 9 = UInt32.ofNat (9 * (done ++ [w]).length) := by
    apply UInt32.toNat_inj.mp
    simp only [UInt32.toNat_add, UInt32.toNat_ofNat', List.length_append, List.length_singleton,
      UInt32.toNat_ofNat]
    omega
  rw [collect, hoff, if_pos hlt, hdrop, Wordentry.ofBytes_bytes]
  simp only [hweight, w.weight.isLt, dite_true, hnext, ofWeight_append_singleton]
  rfl

/-- The first loop sorts the occurrences into the categories by their weights. -/
theorem collect_records (o : ByteOrder) (ws : List Occurrence) (turns : ℕ)
    (hsize : 9 * ws.length < 2 ^ 32) (hturns : ws.length < turns) :
    collect o (records o ws) turns 0 (fun _ => []) = some (ofWeight ws) := by
  have run : ∀ (rest done : List Occurrence) (turns : ℕ), done ++ rest = ws →
      rest.length < turns →
      collect o (records o ws) turns (UInt32.ofNat (9 * done.length)) (ofWeight done) =
        some (ofWeight ws) := by
    intro rest
    induction rest with
    | nil =>
      intro done turns hws ht
      obtain ⟨turns, rfl⟩ : ∃ t, turns = t + 1 := ⟨turns - 1, by omega⟩
      obtain rfl : done = ws := by simpa using hws
      have hoff : (UInt32.ofNat (9 * done.length)).toNat = 9 * done.length := by
        simp only [UInt32.toNat_ofNat']
        omega
      rw [collect, hoff, records_length, if_neg (Nat.lt_irrefl _)]
    | cons w rest ih =>
      intro done turns hws ht
      obtain ⟨turns, rfl⟩ : ∃ t, turns = t + 1 := ⟨turns - 1, by omega⟩
      subst hws
      rw [collect_step o done w rest turns hsize]
      exact ih (done ++ [w]) turns (by simp) (by simpa using ht)
  exact run ws [] turns rfl hturns

/-- With 2^32 bytes of records or more the 32-bit offset never reaches their end: it wraps into a
record, whose bytes may not name a category. -/
theorem collect_diverges (o : ByteOrder) (data : Bytes) (hsize : 2 ^ 32 ≤ data.length)
    (turns : ℕ) (off : UInt32) (currentData : Categories) :
    collect o data turns off currentData = none := by
  induction turns generalizing off currentData with
  | zero => rfl
  | succ turns ih =>
    have hoff : off.toNat < data.length := off.toNat_lt.trans_le hsize
    rw [collect, if_pos hoff]
    split
    · rfl
    · split
      · exact ih _ _
      · rfl

theorem fetchData_records (o : ByteOrder) (ws : List Occurrence) (hsize : 9 * ws.length < 2 ^ 32) :
    fetchData o (records o ws) =
      some (currentParameter (ofWeight ws), currentZData (ofWeight ws)) := by
  rw [fetchData, collect_records o ws _ hsize (by rw [records_length]; omega)]
  rfl

theorem fetchData_records_eq_none (o : ByteOrder) (ws : List Occurrence)
    (hsize : 2 ^ 32 ≤ 9 * ws.length) : fetchData o (records o ws) = none := by
  rw [fetchData, collect_diverges o _ (by rwa [records_length])]
  rfl

end Zim.Index
