import Zim.Index.Walk

/-! `IndexArticle::readEntriesZ` (indexarticle.cpp) on the output of the index writer. -/
namespace Zim.Index
open Cxx

inductive IndexError where
  /-- `std::runtime_error("invalid index entry")`. -/
  | invalidIndexEntry
  /-- The range of a category is not inside the blob; the source does not check this. -/
  | outOfRange
  deriving DecidableEq, Repr

/-- The namespace `'X'` of index articles. -/
def nsX : UInt8 := 0x58

/-- `while (zdata.get(index))`. The variable `pos` is summed up and not used. Every turn
takes a byte, so that more turns than bytes are never needed. -/
def readEntriesLoop (ns : UInt8) (noOffset : Bool) :
    ℕ → UInt32 → UInt32 → IStream → Except IndexError (List IndexEntry)
  | 0, _, _, _ => .ok []
  | turns + 1, indexOffset, pos, zdata =>
    let (index, zdata) := ZInt.get zdata
    if zdata.fail then .ok []
    else
      let entryIndex := indexOffset + index
      let indexOffset := if noOffset then indexOffset else indexOffset + index
      if ns = nsX then
        let (p, zdata) := ZInt.get zdata
        if zdata.fail then .error .invalidIndexEntry
        else
          match readEntriesLoop ns noOffset turns indexOffset (pos + p) zdata with
          | .error err => .error err
          | .ok es => .ok (⟨entryIndex, p⟩ :: es)
      else
        match readEntriesLoop ns noOffset turns indexOffset pos zdata with
        | .error err => .error err
        | .ok es => .ok (⟨entryIndex, 0⟩ :: es)

/-- `for (unsigned c = 0; c <= 3; ++c)`. -/
def readCategories (ns : UInt8) (noOffset : Bool) (blob : Bytes) :
    List (Fin 4) → UInt32 → UInt32 → IStream → Categories → Except IndexError Categories
  | [], _, _, _, entries => .ok entries
  | c :: cs, flagfield, offset, extra, entries =>
    if flagfield &&& 1 ≠ 0 then
      let (len, extra) := ZInt.get extra
      let (index, extra) := ZInt.get extra
      let (pos, extra) := if ns = nsX then ZInt.get extra else (0, extra)
      if extra.fail then .error .invalidIndexEntry
      else if blob.length < offset.toNat + len.toNat then .error .outOfRange
      else
        match readEntriesLoop ns noOffset (len.toNat + 1) 0 pos
          (.ofBytes ((blob.drop offset.toNat).take len.toNat)) with
        | .error err => .error err
        | .ok es =>
          readCategories ns noOffset blob cs (flagfield >>> 1) (offset + len) extra
            (entries.append c (⟨index, pos⟩ :: es))
    else readCategories ns noOffset blob cs (flagfield >>> 1) offset extra entries

/-- `IndexArticle::readEntriesZ` for an article with the given namespace, parameter and data. -/
def readEntriesZ (ns : UInt8) (noOffset : Bool) (parameter blob : Bytes) :
    Except IndexError Categories :=
  let (flagfield, extra) := ZInt.get (.ofBytes parameter)
  readCategories ns noOffset blob categories flagfield 0 extra (fun _ => [])

/-- The loop sums up the stored indices and takes every stored position as it is. -/
theorem readEntriesLoop_codes (l : List (UInt32 × UInt32)) (turns : ℕ) (off pos : UInt32)
    (ht : l.length < turns) :
    readEntriesLoop nsX false turns off pos ⟨codes l, false⟩ =
      .ok ((DeltaCode.decodeKeys off l).map IndexEntry.ofPair) := by
  induction l generalizing turns off pos with
  | nil =>
    obtain ⟨turns, rfl⟩ : ∃ t, turns = t + 1 := ⟨turns - 1, by omega⟩
    rfl
  | cons p l ih =>
    obtain ⟨turns, rfl⟩ : ∃ t, turns = t + 1 := ⟨turns - 1, by omega⟩
    have hrec := ih turns (off + p.1) (pos + p.2) (by simpa using ht)
    simp only [codes_cons, code, List.append_assoc, readEntriesLoop, ZInt.get_put,
      Bool.false_eq_true, if_false, if_true, hrec, DeltaCode.decodeKeys, List.map_cons,
      IndexEntry.ofPair]

/-- From a part of the stored pairs fewer entries are read, if any. -/
theorem readEntriesLoop_short (l : List (UInt32 × UInt32)) (turns n : ℕ) (off pos : UInt32)
    (ht : 0 < turns) (hn : n < (codes l).length) {r : List IndexEntry}
    (h : readEntriesLoop nsX false turns off pos ⟨(codes l).take n, false⟩ = .ok r) :
    r.length < l.length := by
  induction l generalizing turns n off pos r with
  | nil => simp at hn
  | cons p l ih =>
    obtain ⟨turns, rfl⟩ : ∃ t, turns = t + 1 := ⟨turns - 1, by omega⟩
    simp only [codes_cons, code, List.append_assoc] at h hn
    by_cases h1 : n < (ZInt.put p.1).length
    · rw [List.take_append_of_le_length h1.le] at h
      simp only [readEntriesLoop, ZInt.get_put_take _ h1, if_true] at h
      cases h
      simp
    obtain ⟨m, rfl⟩ : ∃ m, n = (ZInt.put p.1).length + m :=
      ⟨_, (Nat.add_sub_cancel' (by omega)).symm⟩
    simp only [List.length_append] at hn
    rw [List.take_length_add_append] at h
    simp only [readEntriesLoop, ZInt.get_put, Bool.false_eq_true, if_false, if_true] at h
    by_cases h2 : m < (ZInt.put p.2).length
    · rw [List.take_append_of_le_length h2.le] at h
      simp only [ZInt.get_put_take _ h2, if_true] at h
      cases h
    obtain ⟨k, rfl⟩ : ∃ k, m = (ZInt.put p.2).length + k :=
      ⟨_, (Nat.add_sub_cancel' (by omega)).symm⟩
    rw [List.take_length_add_append] at h
    simp only [ZInt.get_put, Bool.false_eq_true, if_false] at h
    split at h
    · cases h
    next es hes =>
    cases h
    cases turns with
    | zero =>
      cases hes
      cases l with
      | nil =>
        simp only [codes_nil, List.length_nil] at hn
        omega
      | cons q l => simp
    | succ turns =>
      have := ih (turns + 1) k _ _ (by omega) (by omega) hes
      simpa using this

section Reader
variable (blob : Bytes)

/-- What one turn of the category loop does behind the three integers of the parameter. -/
def readBody (_ : Fin 4) (offset len index pos : UInt32) :
    Except IndexError (List IndexEntry) :=
  if blob.length < offset.toNat + len.toNat then .error .outOfRange
  else
    match readEntriesLoop nsX false (len.toNat + 1) 0 pos
      (.ofBytes ((blob.drop offset.toNat).take len.toNat)) with
    | .error err => .error err
    | .ok es => .ok (⟨index, pos⟩ :: es)

def readSlice (e : IndexEntry) (bs : Bytes) : Except IndexError (List IndexEntry) :=
  match readEntriesLoop nsX false (bs.length + 1) 0 e.pos (.ofBytes bs) with
  | .error err => .error err
  | .ok es => .ok (e :: es)

/-- The entries of a category with every position behind the first taken as it is stored. -/
def readSpec : List IndexEntry → List IndexEntry
  | [] => []
  | e :: es => e :: (DeltaCode.decodeKeys 0 (stored (e :: es))).map IndexEntry.ofPair

section Laws
variable {blob}

theorem readBody_inside (c : Fin 4) (offset len index pos : UInt32)
    (h : offset.toNat + len.toNat ≤ blob.length) :
    readBody blob c offset len index pos =
      readSlice ⟨index, pos⟩ ((blob.drop offset.toNat).take len.toNat) := by
  have hl : ((blob.drop offset.toNat).take len.toNat).length = len.toNat := by
    rw [List.length_take, List.length_drop]
    omega
  rw [readBody, if_neg (by omega), readSlice, hl]

theorem readBody_outside (c : Fin 4) (offset len index pos : UInt32)
    (h : blob.length < offset.toNat + len.toNat) :
    ∃ err, readBody blob c offset len index pos = .error err :=
  ⟨.outOfRange, if_pos h⟩

theorem readSlice_zdata (e : IndexEntry) (es : List IndexEntry) :
    readSlice e (zdata (e :: es)) = .ok (readSpec (e :: es)) := by
  have hl := codes_length_ge (stored (e :: es))
  rw [readSlice, zdata_eq, IStream.ofBytes, readEntriesLoop_codes _ _ _ _ (by omega), readSpec]

theorem readSlice_short (e : IndexEntry) (es : List IndexEntry) (n : ℕ) (r : List IndexEntry)
    (hn : n < (zdata (e :: es)).length) (h : readSlice e ((zdata (e :: es)).take n) = .ok r) :
    r.length < (e :: es).length := by
  rw [zdata_eq] at hn h
  simp only [readSlice] at h
  split at h
  · cases h
  next more hmore =>
  cases h
  have hshort := readEntriesLoop_short _ _ n _ _ (Nat.succ_pos _) hn hmore
  simp only [stored, List.tail_cons, DeltaCode.encode_length, List.length_map] at hshort
  simpa using hshort

end Laws

def entriesReader : CategoryReader blob IndexError where
  body := readBody blob
  decode := readSlice
  spec := readSpec
  spec_nil := rfl
  body_inside := readBody_inside
  body_outside := readBody_outside
  decode_zdata := readSlice_zdata
  decode_short := readSlice_short

/-- The marks that shifting the flag field makes. -/
def shiftMarks (flagfield : UInt32) : List (Fin 4) → List (Fin 4 × Bool)
  | [] => []
  | c :: cs => (c, flagfield &&& 1 ≠ 0) :: shiftMarks (flagfield >>> 1) cs

theorem shiftMarks_flags (cd : Categories) :
    shiftMarks (flags cd) categories = marks cd categories := by
  simp only [marks, categories, shiftMarks, flags, List.map_cons, List.map_nil]
  generalize (cd 0).isEmpty = b0, (cd 1).isEmpty = b1, (cd 2).isEmpty = b2, (cd 3).isEmpty = b3
  decide +revert

theorem readCategories_eq_walk (cs : List (Fin 4)) (flagfield offset : UInt32) (extra : IStream)
    (entries : Categories) :
    readCategories nsX false blob cs flagfield offset extra entries =
      (walk .invalidIndexEntry (readBody blob) (shiftMarks flagfield cs) offset extra).map
        (fill entries) := by
  induction cs generalizing flagfield offset extra entries with
  | nil => rfl
  | cons c cs ih =>
    by_cases hflag : flagfield &&& 1 = 0
    · simp [readCategories, shiftMarks, walk, hflag, ih]
    · simp only [readCategories, shiftMarks, walk, hflag, ne_eq, not_false_eq_true, if_true,
        decide_true, readBody]
      split
      · rfl
      split
      · rfl
      split
      · rfl
      next es _ =>
      rw [ih]
      cases walk .invalidIndexEntry (readBody blob) (shiftMarks (flagfield >>> 1) cs)
        (offset + (ZInt.get extra).1) _ <;> rfl

end Reader

theorem currentParameter_read (cd : Categories) (blob : Bytes) :
    readEntriesZ nsX false (currentParameter cd) blob =
      (walk .invalidIndexEntry (readBody blob) (marks cd categories) 0
        ⟨categories.flatMap (fun c => firstEntry (cd c)) ++ [], false⟩).map
          (fill (fun _ => [])) := by
  rw [readEntriesZ, IStream.ofBytes, currentParameter, ZInt.get_put]
  simp only [readCategories_eq_walk, shiftMarks_flags, List.append_nil]

/-- Data of fewer than 2^32 bytes is read back with every position behind the first taken as
it is stored. -/
theorem readEntriesZ_written (cd : Categories) (hsize : totalSize cd < 2 ^ 32) :
    readEntriesZ nsX false (currentParameter cd) (dataBlob (currentZData cd)) =
      .ok (fun c => readSpec (cd c)) := by
  rw [currentParameter_read]
  exact (entriesReader _).filled_written _ cd rfl hsize

/-- Data of 2^32 bytes or more is not read back. -/
theorem readEntriesZ_cut (cd : Categories) (hsize : 2 ^ 32 ≤ totalSize cd) :
    readEntriesZ nsX false (currentParameter cd) (dataBlob (currentZData cd)) ≠ .ok cd := by
  rw [currentParameter_read]
  exact (entriesReader _).filled_cut _ cd rfl hsize

/-- Behind the first entry of a category, an article only repeats after a position 0. -/
def NoStoredDifference (es : List IndexEntry) : Prop :=
  es.tail.IsChain fun a b => a.index = b.index → a.pos = 0

theorem readSpec_eq_iff (es : List IndexEntry) : readSpec es = es ↔ NoStoredDifference es := by
  cases es with
  | nil => simp [readSpec, NoStoredDifference]
  | cons e es =>
    have hpairs : (DeltaCode.decodeKeys 0 (stored (e :: es))).map IndexEntry.ofPair = es ↔
        DeltaCode.decodeKeys 0 (stored (e :: es)) = es.map IndexEntry.pair := by
      constructor
      · intro h
        conv_lhs => rw [← map_pair_ofPair (DeltaCode.decodeKeys 0 (stored (e :: es))), h]
      · intro h
        rw [h, map_ofPair_pair]
    rw [readSpec, List.cons.injEq, hpairs, NoStoredDifference, List.tail_cons, stored,
      List.tail_cons, DeltaCode.decodeKeys_encode_eq_iff, List.isChain_cons, List.isChain_map]
    simp [IndexEntry.pair]

/-- The reader returns the occurrences of a word by weight and in the order of insertion. -/
def ReadsBack (o : ByteOrder) (ws : List Occurrence) : Prop :=
  ∃ parameter zdata, fetchData o (Occurrence.records o ws) = some (parameter, zdata) ∧
    readEntriesZ nsX false parameter (dataBlob zdata) = .ok (Occurrence.ofWeight ws)

/-- The exact condition is that the records and the compressed data stay below 2^32 bytes and
that no position was stored as a difference to a position other than 0. -/
theorem readsBack_iff (o : ByteOrder) (ws : List Occurrence) : ReadsBack o ws ↔
    9 * ws.length < 2 ^ 32 ∧ totalSize (Occurrence.ofWeight ws) < 2 ^ 32 ∧
      ∀ c, NoStoredDifference (Occurrence.ofWeight ws c) := by
  constructor
  · rintro ⟨parameter, zdata, hf, hr⟩
    have hrec : 9 * ws.length < 2 ^ 32 := by
      by_contra h
      rw [fetchData_records_eq_none o ws (Nat.not_lt.mp h)] at hf
      cases hf
    rw [fetchData_records o ws hrec] at hf
    cases hf
    have hsize : totalSize (Occurrence.ofWeight ws) < 2 ^ 32 := by
      by_contra h
      exact readEntriesZ_cut _ (Nat.not_lt.mp h) hr
    rw [readEntriesZ_written _ hsize] at hr
    exact ⟨hrec, hsize, fun c => (readSpec_eq_iff _).mp (congrFun (Except.ok.inj hr) c)⟩
  · rintro ⟨hrec, hsize, hpos⟩
    refine ⟨_, _, fetchData_records o ws hrec, ?_⟩
    rw [readEntriesZ_written _ hsize]
    exact congrArg _ (funext fun c => (readSpec_eq_iff _).mpr (hpos c))

/-- Three occurrences in article 7: the position 25 comes back as its difference 5 to the
position before. -/
theorem not_readsBack_repeated :
    ¬ ReadsBack .little [⟨7, 10, 3⟩, ⟨7, 20, 3⟩, ⟨7, 25, 3⟩] := by
  rintro ⟨parameter, zdata, hf, hr⟩
  rw [fetchData_records _ _ (by decide)] at hf
  cases hf
  rw [readEntriesZ_written _ (by decide)] at hr
  have h3 : readSpec [⟨7, 10⟩, ⟨7, 20⟩, ⟨7, 25⟩] = [⟨7, 10⟩, ⟨7, 20⟩, ⟨7, 25⟩] :=
    congrFun (Except.ok.inj hr) 3
  revert h3
  decide

end Zim.Index
