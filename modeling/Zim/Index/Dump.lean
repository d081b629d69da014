import Zim.Index.Walk

/-! `ZimDumper::dumpIndex` (tools/zimDump.cpp) on the output of the index writer. -/
namespace Zim.Index
open Cxx

inductive DumpError where
  /-- `std::runtime_error("invalid index parameter data")`. -/
  | invalidParameter
  /-- `std::runtime_error("invalid index data")`. -/
  | invalidData
  /-- A range that passed the check of the 32-bit sum and is not inside the data. -/
  | outOfRange
  deriving DecidableEq, Repr

/-- What is printed for a category: its first entry, every other entry with its stored and
its decoded values, and the end of the line. -/
inductive DumpItem where
  | first (idx wpos : UInt32)
  | entry (oidx owpos idx wpos : UInt32)
  | endl
  deriving DecidableEq, Repr

namespace DumpItem

/-- The index-position pair an item shows. -/
def shown : DumpItem → Option IndexEntry
  | first idx wpos => some ⟨idx, wpos⟩
  | entry _ _ idx wpos => some ⟨idx, wpos⟩
  | endl => none

end DumpItem

/-- `while (in.get(idx).get(wpos))`. Every turn takes at least two bytes. -/
def dumpLoop : ℕ → UInt32 → UInt32 → IStream → List DumpItem
  | 0, _, _, _ => []
  | turns + 1, lastidx, lastpos, s =>
    let (idx, s) := ZInt.get s
    let (wpos, s) := ZInt.get s
    if s.fail then []
    else if idx = 0 then
      .entry idx wpos lastidx (wpos + lastpos) :: dumpLoop turns lastidx (wpos + lastpos) s
    else .entry idx wpos (idx + lastidx) wpos :: dumpLoop turns (idx + lastidx) wpos s

/-- The part of the category loop behind the three integers of the parameter. -/
def dumpCategory (data : Bytes) (_ : Fin 4) (off len idx wpos : UInt32) :
    Except DumpError (List DumpItem) :=
  if data.length < (off + len).toNat then .error .invalidData
  else if data.length < off.toNat + len.toNat then .error .outOfRange
  else
    .ok (.first idx wpos :: dumpLoop (len.toNat + 1) 0 0
      (.ofBytes ((data.drop off.toNat).take len.toNat)) ++ [.endl])

/-- `for (unsigned c = 0, flag = 1; c < 4; ++c, flag <<= 1)`. -/
def dumpCategories (data : Bytes) (flags : UInt32) :
    List (Fin 4) → UInt32 → UInt32 → IStream → Except DumpError (List (Fin 4 × DumpItem))
  | [], _, _, _ => .ok []
  | c :: cs, flag, off, parameter =>
    if flags &&& flag = 0 then dumpCategories data flags cs (flag <<< 1) off parameter
    else
      let (len, parameter) := ZInt.get parameter
      let (idx, parameter) := ZInt.get parameter
      let (wpos, parameter) := ZInt.get parameter
      if parameter.fail then .error .invalidParameter
      else
        match dumpCategory data c off len idx wpos with
        | .error err => .error err
        | .ok items =>
          match dumpCategories data flags cs (flag <<< 1) (off + len) parameter with
          | .error err => .error err
          | .ok more => .ok (items.map (c, ·) ++ more)

/-- `ZimDumper::dumpIndex` for an article of namespace `'X'`: the items printed, or the
exception that ends the run. -/
def dumpIndex (parameter data : Bytes) : Except DumpError (List (Fin 4 × DumpItem)) :=
  let (flags, parameter) := ZInt.get (.ofBytes parameter)
  if parameter.fail then .error .invalidParameter
  else dumpCategories data flags categories 1 0 parameter

/-- The pairs printed for every category. -/
def printed (out : List (Fin 4 × DumpItem)) : Categories :=
  fun c => (out.filter fun p => p.1 = c).filterMap fun p => p.2.shown

def shownPairs (items : List DumpItem) : List IndexEntry := items.filterMap DumpItem.shown

/-- The loop inverts difference coding. -/
theorem dumpLoop_codes (l : List (UInt32 × UInt32)) (turns : ℕ) (lastidx lastpos : UInt32)
    (ht : l.length < turns) :
    shownPairs (dumpLoop turns lastidx lastpos ⟨codes l, false⟩) =
      (DeltaCode.decode lastidx lastpos l).map IndexEntry.ofPair := by
  induction l generalizing turns lastidx lastpos with
  | nil =>
    obtain ⟨turns, rfl⟩ : ∃ t, turns = t + 1 := ⟨turns - 1, by omega⟩
    rfl
  | cons p l ih =>
    obtain ⟨turns, rfl⟩ : ∃ t, turns = t + 1 := ⟨turns - 1, by omega⟩
    have ht' : l.length < turns := by simpa using ht
    simp only [codes_cons, code, List.append_assoc, dumpLoop, ZInt.get_put, Bool.false_eq_true,
      if_false, DeltaCode.decode]
    by_cases h : p.1 = 0
    · simp [h, shownPairs, DumpItem.shown, ← ih turns lastidx (p.2 + lastpos) ht',
        IndexEntry.ofPair]
    · simp [h, shownPairs, DumpItem.shown, ← ih turns (p.1 + lastidx) p.2 ht', IndexEntry.ofPair]

/-- From a part of the stored pairs fewer entries are printed. -/
theorem dumpLoop_short (l : List (UInt32 × UInt32)) (turns n : ℕ) (lastidx lastpos : UInt32)
    (hn : n < (codes l).length) :
    (shownPairs (dumpLoop turns lastidx lastpos ⟨(codes l).take n, false⟩)).length <
      l.length := by
  induction l generalizing turns n lastidx lastpos with
  | nil => simp at hn
  | cons p l ih =>
    cases turns with
    | zero => simp [dumpLoop, shownPairs]
    | succ turns =>
      simp only [codes_cons, code, List.append_assoc] at hn ⊢
      by_cases h1 : n < (ZInt.put p.1).length
      · rw [List.take_append_of_le_length h1.le]
        simp only [dumpLoop, ZInt.get_put_take _ h1]
        simp [ZInt.get, IStream.get_of_fail, shownPairs]
      obtain ⟨m, rfl⟩ : ∃ m, n = (ZInt.put p.1).length + m :=
        ⟨_, (Nat.add_sub_cancel' (by omega)).symm⟩
      simp only [List.length_append] at hn
      rw [List.take_length_add_append]
      simp only [dumpLoop, ZInt.get_put]
      by_cases h2 : m < (ZInt.put p.2).length
      · rw [List.take_append_of_le_length h2.le]
        simp [ZInt.get_put_take _ h2, shownPairs]
      obtain ⟨k, rfl⟩ : ∃ k, m = (ZInt.put p.2).length + k :=
        ⟨_, (Nat.add_sub_cancel' (by omega)).symm⟩
      rw [List.take_length_add_append]
      simp only [ZInt.get_put, Bool.false_eq_true, if_false]
      split
      · simpa [shownPairs, DumpItem.shown] using ih turns k _ _ (by omega)
      · simpa [shownPairs, DumpItem.shown] using ih turns k _ _ (by omega)

section Reader
variable (data : Bytes)

def dumpReader : CategoryReader data DumpError where
  body c off len idx wpos := (dumpCategory data c off len idx wpos).map shownPairs
  decode e bs := .ok (e :: shownPairs (dumpLoop (bs.length + 1) 0 0 (.ofBytes bs)))
  spec es := es
  spec_nil := rfl
  body_inside c off len idx wpos h := by
    have hl : ((data.drop off.toNat).take len.toNat).length = len.toNat := by
      rw [List.length_take, List.length_drop]
      omega
    have hsum : (off + len).toNat ≤ off.toNat + len.toNat := by
      rw [UInt32.toNat_add]
      exact Nat.mod_le _ _
    rw [dumpCategory, if_neg (by omega), if_neg (by omega), hl]
    simp [Except.map, shownPairs, DumpItem.shown]
  body_outside c off len idx wpos h := by
    rw [dumpCategory]
    split_ifs
    · exact ⟨.invalidData, rfl⟩
    · exact ⟨.outOfRange, rfl⟩
  decode_zdata e es := by
    have hl := codes_length_ge (stored (e :: es))
    rw [zdata_eq, IStream.ofBytes, dumpLoop_codes _ _ _ _ (by omega), stored,
      DeltaCode.decode_encode, List.tail_cons, map_ofPair_pair]
  decode_short e es n r hn h := by
    cases h
    rw [zdata_eq] at hn
    have := dumpLoop_short _ (((codes (stored (e :: es))).take n).length + 1) n 0 0 hn
    simp only [stored, List.tail_cons, DeltaCode.encode_length, List.length_map] at this
    simpa [zdata_eq, IStream.ofBytes, stored] using this

/-- The marks that shifting the mask makes. -/
def maskMarks (flags flag : UInt32) : List (Fin 4) → List (Fin 4 × Bool)
  | [] => []
  | c :: cs => (c, flags &&& flag ≠ 0) :: maskMarks flags (flag <<< 1) cs

theorem maskMarks_flags (cd : Categories) :
    maskMarks (flags cd) 1 categories = marks cd categories := by
  simp only [marks, categories, maskMarks, flags, List.map_cons, List.map_nil]
  generalize (cd 0).isEmpty = b0, (cd 1).isEmpty = b1, (cd 2).isEmpty = b2, (cd 3).isEmpty = b3
  decide +revert

theorem dumpCategories_eq_walk (flags : UInt32) (cs : List (Fin 4)) (flag off : UInt32)
    (parameter : IStream) : dumpCategories data flags cs flag off parameter =
      (walk .invalidParameter (dumpCategory data) (maskMarks flags flag cs) off parameter).map
        (fun l => l.flatMap fun p => p.2.map (p.1, ·)) := by
  induction cs generalizing flag off parameter with
  | nil => rfl
  | cons c cs ih =>
    by_cases hflag : flags &&& flag = 0
    · simp [dumpCategories, maskMarks, walk, hflag, ih]
    · simp only [dumpCategories, maskMarks, walk, hflag, ne_eq, not_false_eq_true, if_false,
        decide_true, ih]
      split
      · rfl
      generalize dumpCategory data c off _ _ _ = b
      cases b with
      | error err => rfl
      | ok items =>
        cases walk .invalidParameter (dumpCategory data) (maskMarks flags (flag <<< 1) cs)
          (off + (ZInt.get parameter).1) _ <;> rfl

end Reader

/-- The items of every category, each marked with its category. -/
def tagged (l : List (Fin 4 × List DumpItem)) : List (Fin 4 × DumpItem) :=
  l.flatMap fun p => p.2.map (p.1, ·)

theorem printed_cons (p : Fin 4 × List DumpItem) (l : List (Fin 4 × List DumpItem)) (c : Fin 4) :
    printed (tagged (p :: l)) c =
      (if p.1 = c then shownPairs p.2 else []) ++ printed (tagged l) c := by
  have hfilter : (p.2.map (p.1, ·)).filter (fun q => decide (q.1 = c)) =
      if p.1 = c then p.2.map (p.1, ·) else [] := by
    rw [List.filter_map]
    split_ifs with h <;> simp [h, Function.comp_def]
  simp only [printed, tagged, List.flatMap_cons, List.filter_append, List.filterMap_append,
    hfilter]
  split_ifs <;> simp [shownPairs, List.filterMap_map]

/-- What is printed for a category is what its reader decoded. -/
theorem printed_eq_fill (l : List (Fin 4 × List DumpItem)) :
    printed (tagged l) = fill (fun _ => []) (l.map fun p => (p.1, shownPairs p.2)) := by
  have hgen : ∀ (entries : Categories) (c : Fin 4),
      fill entries (l.map fun p => (p.1, shownPairs p.2)) c =
        entries c ++ printed (tagged l) c := by
    induction l with
    | nil => simp [fill, printed, tagged]
    | cons p l ih =>
      intro entries c
      rw [printed_cons, List.map_cons, fill, List.foldl_cons, ← fill, ih, Categories.append]
      by_cases h : c = p.1
      · subst h
        simp
      · rw [Function.update_of_ne h, if_neg (Ne.symm h), List.nil_append]
  funext c
  rw [hgen, List.nil_append]

theorem currentParameter_dump (cd : Categories) (data : Bytes) :
    (dumpIndex (currentParameter cd) data).map printed =
      (walk .invalidParameter (dumpReader data).body (marks cd categories) 0
        ⟨categories.flatMap (fun c => firstEntry (cd c)) ++ [], false⟩).map
          (fill (fun _ => [])) := by
  rw [dumpIndex, IStream.ofBytes, currentParameter, ZInt.get_put]
  simp only [Bool.false_eq_true, if_false, dumpCategories_eq_walk, maskMarks_flags,
    List.append_nil]
  rw [show (dumpReader data).body = fun c off len idx wpos =>
    (dumpCategory data c off len idx wpos).map shownPairs from rfl, walk_map]
  cases walk .invalidParameter (dumpCategory data) (marks cd categories) 0
    ⟨categories.flatMap (fun c => firstEntry (cd c)), false⟩ with
  | error err => rfl
  | ok l => exact congrArg Except.ok (printed_eq_fill l)

/-- The dump of a word prints its occurrences by weight and in the order of insertion. -/
def Dumps (o : ByteOrder) (ws : List Occurrence) : Prop :=
  ∃ parameter zdata out, fetchData o (Occurrence.records o ws) = some (parameter, zdata) ∧
    dumpIndex parameter (dataBlob zdata) = .ok out ∧ printed out = Occurrence.ofWeight ws

/-- The exact condition is that the records and the compressed data stay below 2^32 bytes. -/
theorem dumps_iff (o : ByteOrder) (ws : List Occurrence) : Dumps o ws ↔
    9 * ws.length < 2 ^ 32 ∧ totalSize (Occurrence.ofWeight ws) < 2 ^ 32 := by
  constructor
  · rintro ⟨parameter, zdata, out, hf, hd, hout⟩
    have hrec : 9 * ws.length < 2 ^ 32 := by
      by_contra h
      rw [fetchData_records_eq_none o ws (Nat.not_lt.mp h)] at hf
      cases hf
    refine ⟨hrec, ?_⟩
    rw [fetchData_records o ws hrec] at hf
    cases hf
    by_contra h
    apply (dumpReader _).filled_cut .invalidParameter _ rfl (Nat.not_lt.mp h)
    rw [← currentParameter_dump, hd]
    exact congrArg Except.ok hout
  · rintro ⟨hrec, hsize⟩
    have h := (dumpReader _).filled_written .invalidParameter _ rfl hsize
    rw [← currentParameter_dump] at h
    cases hd : dumpIndex (currentParameter (Occurrence.ofWeight ws))
        (dataBlob (currentZData (Occurrence.ofWeight ws))) with
    | error err =>
      rw [hd] at h
      cases h
    | ok out =>
      rw [hd] at h
      exact ⟨_, _, out, fetchData_records o ws hrec, hd, Except.ok.inj h⟩

/-- With 477218589 records, which take more than 2^32 bytes, `fetchData` does not return. -/
theorem not_dumps_many : ¬ Dumps .little (List.replicate 477218589 ⟨1, 5, 3⟩) := by
  rintro ⟨parameter, zdata, out, hf, -, -⟩
  rw [fetchData_records_eq_none _ _ (by rw [List.length_replicate]; decide)] at hf
  cases hf

end Zim.Index
