import Zim.Index.Indexer

/-! What the two readers of an index article have in common: a walk over the categories
that the flags name, taking a length and a first entry from the parameter and a range of
the data for each of them. -/
namespace Zim.Index
open Cxx

def IndexEntry.pair (e : IndexEntry) : UInt32 × UInt32 := (e.index, e.pos)

def IndexEntry.ofPair (p : UInt32 × UInt32) : IndexEntry := ⟨p.1, p.2⟩

@[simp] theorem IndexEntry.ofPair_pair (e : IndexEntry) : ofPair e.pair = e := rfl

@[simp] theorem map_ofPair_pair (es : List IndexEntry) :
    (es.map IndexEntry.pair).map IndexEntry.ofPair = es := by
  simp [Function.comp_def]

@[simp] theorem map_pair_ofPair (l : List (UInt32 × UInt32)) :
    (l.map IndexEntry.ofPair).map IndexEntry.pair = l := by
  simp [Function.comp_def, IndexEntry.pair, IndexEntry.ofPair]

/-- Two integers in sequence, as the data holds them for an entry. -/
def code (p : UInt32 × UInt32) : Bytes := ZInt.put p.1 ++ ZInt.put p.2

def codes (l : List (UInt32 × UInt32)) : Bytes := l.flatMap code

@[simp] theorem codes_nil : codes [] = [] := rfl

@[simp] theorem codes_cons (p : UInt32 × UInt32) (l : List (UInt32 × UInt32)) :
    codes (p :: l) = code p ++ codes l := rfl

theorem code_length_pos (p : UInt32 × UInt32) : 0 < (code p).length := by
  simp [code]

theorem codes_length_ge (l : List (UInt32 × UInt32)) : l.length ≤ (codes l).length := by
  induction l with
  | nil => exact le_refl _
  | cons p l ih =>
    have := code_length_pos p
    simp only [codes_cons, List.length_append, List.length_cons]
    omega

/-- The writer's loop is difference coding of the index-position pairs. -/
theorem compress_eq (lastidx lastpos : UInt32) (es : List IndexEntry) :
    compress lastidx lastpos es =
      codes (DeltaCode.encode lastidx lastpos (es.map IndexEntry.pair)) := by
  induction es generalizing lastidx lastpos with
  | nil => rfl
  | cons e es ih =>
    have hidx : (if e.index - lastidx = 0 then lastidx else e.index) = e.index := by
      split_ifs with h
      · exact (sub_eq_zero.mp h).symm
      · rfl
    simp only [compress, hidx, ih, List.map_cons, IndexEntry.pair, DeltaCode.encode, codes_cons,
      code, List.append_assoc]

/-- The pairs stored in the data for the entries of a category. -/
def stored (es : List IndexEntry) : List (UInt32 × UInt32) :=
  DeltaCode.encode 0 0 (es.tail.map IndexEntry.pair)

theorem zdata_eq (es : List IndexEntry) : zdata es = codes (stored es) := compress_eq 0 0 es.tail

/-- The bytes a category takes in the data, by the ranges of the integer format. -/
def storedSize (es : List IndexEntry) : ℕ :=
  ((stored es).map fun p => (ZInt.extra p.1 + 1) + (ZInt.extra p.2 + 1)).sum

theorem zdata_length (es : List IndexEntry) : (zdata es).length = storedSize es := by
  rw [zdata_eq, storedSize]
  induction stored es with
  | nil => rfl
  | cons p l ih => simp [code, ih, Nat.add_assoc]

theorem zdata_nil : zdata [] = [] := rfl

/-- The bytes of the whole data. -/
def totalSize (cd : Categories) : ℕ := (categories.map fun c => storedSize (cd c)).sum

theorem currentZData_length (cd : Categories) : (currentZData cd).length = totalSize cd := by
  simp [currentZData, totalSize, List.length_flatMap, zdata_length]

def Categories.append (cd : Categories) (c : Fin 4) (es : List IndexEntry) : Categories :=
  Function.update cd c (cd c ++ es)

/-- The categories filled from a list of decoded ones. -/
def fill (entries : Categories) (l : List (Fin 4 × List IndexEntry)) : Categories :=
  l.foldl (fun entries p => entries.append p.1 p.2) entries

theorem fill_of_not_mem (l : List (Fin 4 × List IndexEntry)) (entries : Categories) (c : Fin 4)
    (h : c ∉ l.map Prod.fst) : fill entries l c = entries c := by
  induction l generalizing entries with
  | nil => rfl
  | cons p l ih =>
    rw [List.map_cons, List.mem_cons, not_or] at h
    rw [fill, List.foldl_cons, ← fill, ih _ h.2, Categories.append,
      Function.update_of_ne h.1]

theorem fill_of_mem (l : List (Fin 4 × List IndexEntry)) (entries : Categories)
    (hl : (l.map Prod.fst).Nodup) {p : Fin 4 × List IndexEntry} (hp : p ∈ l) :
    fill entries l p.1 = entries p.1 ++ p.2 := by
  induction l generalizing entries with
  | nil => cases hp
  | cons q l ih =>
    rw [List.map_cons, List.nodup_cons] at hl
    rw [fill, List.foldl_cons, ← fill]
    rcases List.mem_cons.mp hp with rfl | hp
    · rw [fill_of_not_mem _ _ _ hl.1, Categories.append, Function.update_self]
    · have hne : p.1 ≠ q.1 := fun he => hl.1 (he ▸ List.mem_map_of_mem hp)
      rw [ih _ hl.2 hp, Categories.append, Function.update_of_ne hne]

/-- The marks that the flags of given categories make. -/
def marks (cd : Categories) (cs : List (Fin 4)) : List (Fin 4 × Bool) :=
  cs.map fun c => (c, !(cd c).isEmpty)

theorem marks_nodup (cd : Categories) : ((marks cd categories).map Prod.fst).Nodup := by
  simp only [marks, List.map_map, Function.comp_def, List.map_id']
  decide

section Walk
variable {ε β : Type}

/-- `body c offset len index pos` handles one category; `invalid` is thrown when the
parameter ends early. -/
def walk (invalid : ε) (body : Fin 4 → UInt32 → UInt32 → UInt32 → UInt32 → Except ε β) :
    List (Fin 4 × Bool) → UInt32 → IStream → Except ε (List (Fin 4 × β))
  | [], _, _ => .ok []
  | (_, false) :: cs, offset, extra => walk invalid body cs offset extra
  | (c, true) :: cs, offset, extra =>
    let (len, extra) := ZInt.get extra
    let (index, extra) := ZInt.get extra
    let (pos, extra) := ZInt.get extra
    if extra.fail then .error invalid
    else
      match body c offset len index pos with
      | .error e => .error e
      | .ok b =>
        match walk invalid body cs (offset + len) extra with
        | .error e => .error e
        | .ok bs => .ok ((c, b) :: bs)

/-- The walk over a parameter hands every category's length and first entry to `body`. -/
theorem walk_firstEntry (invalid : ε)
    (body : Fin 4 → UInt32 → UInt32 → UInt32 → UInt32 → Except ε β)
    (marks : List (Fin 4 × Bool)) (c : Fin 4) (offset : UInt32) (e : IndexEntry)
    (es : List IndexEntry) (rest : Bytes) :
    walk invalid body ((c, true) :: marks) offset ⟨firstEntry (e :: es) ++ rest, false⟩ =
      match body c offset (UInt32.ofNat (zdata (e :: es)).length) e.index e.pos with
      | .error err => .error err
      | .ok b =>
        match walk invalid body marks (offset + UInt32.ofNat (zdata (e :: es)).length)
          ⟨rest, false⟩ with
        | .error err => .error err
        | .ok bs => .ok ((c, b) :: bs) := by
  simp only [walk, firstEntry, List.append_assoc, ZInt.get_put, Bool.false_eq_true, if_false]

/-- A function applied to the results of `body` is applied to the results of the walk. -/
theorem walk_map {γ : Type} (invalid : ε) (f : β → γ)
    (body : Fin 4 → UInt32 → UInt32 → UInt32 → UInt32 → Except ε β)
    (ms : List (Fin 4 × Bool)) (offset : UInt32) (extra : IStream) :
    walk invalid (fun c off len index pos => (body c off len index pos).map f) ms offset extra =
      (walk invalid body ms offset extra).map (List.map fun p => (p.1, f p.2)) := by
  induction ms generalizing offset extra with
  | nil => rfl
  | cons m ms ih =>
    obtain ⟨c, marked⟩ := m
    cases marked with
    | false => exact ih _ _
    | true =>
      simp only [walk, ih]
      split
      · rfl
      generalize body c offset _ _ _ = b
      cases b with
      | error err => rfl
      | ok b =>
        simp only [Except.map]
        cases walk invalid body ms (offset + (ZInt.get extra).1) _ <;> rfl

/-- A category reader: inside the data it decodes the category's range, outside it fails.
It decodes the data the writer made of a category to `spec`, and of a part of it to a
shorter list, if to any. -/
structure CategoryReader (blob : Bytes) (ε : Type) where
  body : Fin 4 → UInt32 → UInt32 → UInt32 → UInt32 → Except ε (List IndexEntry)
  decode : IndexEntry → Bytes → Except ε (List IndexEntry)
  spec : List IndexEntry → List IndexEntry
  spec_nil : spec [] = []
  body_inside : ∀ c offset len index pos, offset.toNat + len.toNat ≤ blob.length →
    body c offset len index pos =
      decode ⟨index, pos⟩ ((blob.drop offset.toNat).take len.toNat)
  body_outside : ∀ c offset len index pos, blob.length < offset.toNat + len.toNat →
    ∃ err, body c offset len index pos = .error err
  decode_zdata : ∀ e es, decode e (zdata (e :: es)) = .ok (spec (e :: es))
  decode_short : ∀ e es n r, n < (zdata (e :: es)).length →
    decode e ((zdata (e :: es)).take n) = .ok r → r.length < (e :: es).length

namespace CategoryReader
variable {blob : Bytes} (R : CategoryReader blob ε) (invalid : ε)

theorem body_zdata {before after : Bytes} (hblob : blob = before ++ after)
    (hsize : blob.length < 2 ^ 32) (c : Fin 4) (e : IndexEntry) (es : List IndexEntry)
    (later : Bytes) (hafter : after = zdata (e :: es) ++ later) :
    R.body c (UInt32.ofNat before.length) (UInt32.ofNat (zdata (e :: es)).length) e.index e.pos =
      .ok (R.spec (e :: es)) := by
  subst hafter hblob
  simp only [List.length_append] at hsize
  have hoff : (UInt32.ofNat before.length).toNat = before.length := by
    simp only [UInt32.toNat_ofNat']
    omega
  have hlen : (UInt32.ofNat (zdata (e :: es)).length).toNat = (zdata (e :: es)).length := by
    simp only [UInt32.toNat_ofNat']
    omega
  rw [R.body_inside _ _ _ _ _ (by rw [hoff, hlen]; simp only [List.length_append]; omega),
    hoff, hlen, List.drop_left, List.take_left]
  exact R.decode_zdata e es

/-- With fewer than 2^32 bytes of data every category is decoded from its own range. -/
theorem walk_fits (cd : Categories) (hsize : blob.length < 2 ^ 32) (cs : List (Fin 4))
    (before : Bytes) (hblob : blob = before ++ cs.flatMap (fun c => zdata (cd c)))
    (rest : Bytes) :
    walk invalid R.body (marks cd cs) (UInt32.ofNat before.length)
        ⟨cs.flatMap (fun c => firstEntry (cd c)) ++ rest, false⟩ =
      .ok ((cs.filter fun c => !(cd c).isEmpty).map fun c => (c, R.spec (cd c))) := by
  induction cs generalizing before with
  | nil => rfl
  | cons c cs ih =>
    rw [marks, List.map_cons, ← marks]
    cases hc : cd c with
    | nil =>
      have h := ih before (by simpa [hc, zdata_nil] using hblob)
      simpa [walk, firstEntry, hc] using h
    | cons e es =>
      have hnext : blob = (before ++ zdata (e :: es)) ++ cs.flatMap (fun c => zdata (cd c)) := by
        rw [hblob, List.flatMap_cons, hc, List.append_assoc]
      have hoff : UInt32.ofNat before.length + UInt32.ofNat (zdata (e :: es)).length =
          UInt32.ofNat (before ++ zdata (e :: es)).length := by
        rw [List.length_append, UInt32.ofNat_add]
      have hbody := R.body_zdata hblob hsize c e es
        (cs.flatMap fun c => zdata (cd c)) (by rw [List.flatMap_cons, hc])
      simp only [List.isEmpty_cons, Bool.not_false, List.flatMap_cons, hc, List.append_assoc]
      rw [walk_firstEntry, hbody, hoff, ih _ hnext]
      simp [hc]

/-- The decoded categories are some of those listed, in the same order. -/
theorem walk_keys {ms : List (Fin 4 × Bool)} {offset : UInt32} {extra : IStream}
    {r : List (Fin 4 × List IndexEntry)} (h : walk invalid R.body ms offset extra = .ok r) :
    (r.map Prod.fst).Sublist (ms.map Prod.fst) := by
  induction ms generalizing offset extra r with
  | nil =>
    cases h
    simp
  | cons m ms ih =>
    obtain ⟨c, marked⟩ := m
    cases marked with
    | false => exact (ih h).cons c
    | true =>
      simp only [walk] at h
      split at h
      · cases h
      split at h
      · cases h
      split at h
      · cases h
      next htail =>
      cases h
      exact (ih htail).cons_cons c

/-- A part of the data that lies in the blob is read from it as it was written. -/
theorem dataBlob_slice {before part after : Bytes} {n : ℕ}
    (hblob : blob = dataBlob (before ++ (part ++ after)))
    (hin : before.length + n ≤ blob.length) (hle : n ≤ part.length) :
    (blob.drop before.length).take n = part.take n := by
  rw [hblob, dataBlob, List.length_take] at hin
  rw [hblob, dataBlob, List.drop_take, List.drop_left, List.take_take, Nat.min_eq_left (by omega),
    List.take_append_of_le_length hle]

/-- With 2^32 bytes of data or more, the 32-bit size and offsets cut some category short:
the walk fails or decodes too few entries of a category. -/
theorem walk_cut (cd : Categories) (cs : List (Fin 4)) (before : Bytes)
    (hbefore : before.length < 2 ^ 32)
    (hsize : 2 ^ 32 ≤ (before ++ cs.flatMap (fun c => zdata (cd c))).length)
    (hblob : blob = dataBlob (before ++ cs.flatMap (fun c => zdata (cd c))))
    (rest : Bytes) {r : List (Fin 4 × List IndexEntry)}
    (h : walk invalid R.body (marks cd cs) (UInt32.ofNat before.length)
      ⟨cs.flatMap (fun c => firstEntry (cd c)) ++ rest, false⟩ = .ok r) :
    ∃ p ∈ r, p.1 ∈ cs ∧ p.2.length < (cd p.1).length := by
  induction cs generalizing before r with
  | nil =>
    simp only [List.flatMap_nil, List.append_nil] at hsize
    omega
  | cons c cs ih =>
    rw [marks, List.map_cons, ← marks] at h
    cases hc : cd c with
    | nil =>
      have hz : (c :: cs).flatMap (fun c => zdata (cd c)) =
          cs.flatMap (fun c => zdata (cd c)) := by simp [hc, zdata_nil]
      rw [hz] at hsize hblob
      obtain ⟨p, hp, hm, hl⟩ := ih before hbefore hsize hblob
        (by simpa [walk, firstEntry, hc] using h)
      exact ⟨p, hp, List.mem_cons_of_mem _ hm, hl⟩
    | cons e es =>
      set all := before ++ (c :: cs).flatMap (fun c => zdata (cd c)) with hall
      have hsplit : all = before ++ (zdata (e :: es) ++ cs.flatMap (fun c => zdata (cd c))) := by
        rw [hall, List.flatMap_cons, hc]
      have hsplit' : all = (before ++ zdata (e :: es)) ++ cs.flatMap (fun c => zdata (cd c)) := by
        rw [hsplit, List.append_assoc]
      have hblobLen : blob.length < 2 ^ 32 := by
        rw [hblob, dataBlob, List.length_take]
        have := Nat.mod_lt all.length (show 0 < 2 ^ 32 by decide)
        omega
      have hoff : (UInt32.ofNat before.length).toNat = before.length := by
        simp only [UInt32.toNat_ofNat']
        omega
      simp only [List.isEmpty_cons, Bool.not_false, List.flatMap_cons, hc,
        List.append_assoc] at h
      rw [walk_firstEntry] at h
      split at h
      · cases h
      next b hb =>
      split at h
      · cases h
      next bs hbs =>
      cases h
      by_cases hfit : before.length + (zdata (e :: es)).length < 2 ^ 32
      · have hnext : UInt32.ofNat before.length + UInt32.ofNat (zdata (e :: es)).length =
            UInt32.ofNat (before ++ zdata (e :: es)).length := by
          rw [List.length_append, UInt32.ofNat_add]
        rw [hnext] at hbs
        obtain ⟨p, hp, hm, hl⟩ := ih _ (by rw [List.length_append]; exact hfit)
          (hsplit' ▸ hsize) (hsplit' ▸ hblob) hbs
        exact ⟨p, List.mem_cons_of_mem _ hp, List.mem_cons_of_mem _ hm, hl⟩
      · -- the 32-bit length is wrong, or the range ends behind the cut data
        refine ⟨(c, b), List.mem_cons_self, List.mem_cons_self, ?_⟩
        have hin : before.length + (UInt32.ofNat (zdata (e :: es)).length).toNat ≤
            blob.length := by
          by_contra hout
          obtain ⟨err, herr⟩ := R.body_outside c (UInt32.ofNat before.length)
            (UInt32.ofNat (zdata (e :: es)).length) e.index e.pos (by rw [hoff]; omega)
          rw [herr] at hb
          cases hb
        rw [R.body_inside _ _ _ _ _ (by rw [hoff]; exact hin), hoff] at hb
        have hle : (UInt32.ofNat (zdata (e :: es)).length).toNat ≤ (zdata (e :: es)).length := by
          simp only [UInt32.toNat_ofNat']
          exact Nat.mod_le _ _
        rw [hsplit] at hblob
        rw [dataBlob_slice hblob hin hle] at hb
        have hshort := R.decode_short e es _ b (by omega) hb
        rwa [hc]

/-- The categories of the writer's parameter and data, when the data fits. -/
theorem filled_written (cd : Categories) (hblob : blob = dataBlob (currentZData cd))
    (hsize : totalSize cd < 2 ^ 32) :
    (walk invalid R.body (marks cd categories) 0
        ⟨categories.flatMap (fun c => firstEntry (cd c)) ++ [], false⟩).map
      (fill (fun _ => [])) = .ok (fun c => R.spec (cd c)) := by
  have hlen : (currentZData cd).length < 2 ^ 32 := by rwa [currentZData_length]
  have hdata : blob = currentZData cd := by
    rw [hblob, dataBlob, Nat.mod_eq_of_lt hlen, List.take_length]
  have hwalk := R.walk_fits invalid cd (hdata ▸ hlen) categories [] hdata []
  have hkeys := R.walk_keys _ hwalk
  rw [show (0 : UInt32) = UInt32.ofNat ([] : Bytes).length from rfl, hwalk]
  simp only [Except.map, Except.ok.injEq]
  funext c
  cases hc : cd c with
  | nil =>
    rw [fill_of_not_mem, R.spec_nil]
    simp [hc]
  | cons e es =>
    have hmem : (c, R.spec (cd c)) ∈
        (categories.filter fun c => !(cd c).isEmpty).map fun c => (c, R.spec (cd c)) :=
      List.mem_map_of_mem (List.mem_filter.mpr ⟨mem_categories c, by simp [hc]⟩)
    have h := fill_of_mem _ (fun _ => []) (hkeys.nodup (marks_nodup cd)) hmem
    rw [← hc]
    exact h

/-- When the data does not fit, the categories are not those written. -/
theorem filled_cut (cd : Categories) (hblob : blob = dataBlob (currentZData cd))
    (hsize : 2 ^ 32 ≤ totalSize cd) :
    (walk invalid R.body (marks cd categories) 0
        ⟨categories.flatMap (fun c => firstEntry (cd c)) ++ [], false⟩).map
      (fill (fun _ => [])) ≠ .ok cd := by
  intro h
  cases hr : walk invalid R.body (marks cd categories) 0
      ⟨categories.flatMap (fun c => firstEntry (cd c)) ++ [], false⟩ with
  | error err =>
    rw [hr] at h
    cases h
  | ok r =>
    rw [hr] at h
    have hfill : fill (fun _ => []) r = cd := Except.ok.inj h
    obtain ⟨p, hp, -, hlt⟩ := R.walk_cut invalid cd categories [] (by decide)
      (by rw [← currentZData_length] at hsize; exact hsize) hblob [] hr
    have hkeys := R.walk_keys _ hr
    have := fill_of_mem r (fun _ => []) (hkeys.nodup (marks_nodup cd)) hp
    rw [hfill, List.nil_append] at this
    rw [this] at hlt
    exact absurd hlt (Nat.lt_irrefl _)

end CategoryReader
end Walk
end Zim.Index
