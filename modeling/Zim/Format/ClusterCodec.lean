import Zim.Format.ClusterBlobs

/-! Clusters read into any `ClusterImpl`: the round trip of the uncompressed form, and what a
stream that reads without a failure says about the offsets (cluster.h, cluster.cpp). -/
namespace Zim
open Cxx
namespace ClusterImpl

/-- `operator>>` into a cluster that held `c`: the cluster, and the stream behind it. A compressed
cluster leaves its stream wherever the decompressor has read to. -/
def getInto (build : Build) (c : ClusterImpl) (s : IStream) :
    Except ZimError (ClusterImpl × Option IStream) :=
  let (ch, s) := s.get
  match CompressionType.ofChar (ch.getD 0) with
  | none => .ok (c, some s.setFail)
  | some compression =>
    let cluster := c.setCompression compression
    if compression.isCompressed then
      match build.codec compression with
      | none => .error (.runtime compression.notEnabled)
      | some codec =>
        let (bs, text) := codec.uncompress s.rest
        let (cluster, is) := cluster.read build.host (.ofBytes bs)
        if is.fail then .error (.runtime text) else .ok (cluster, none)
    else
      let (cluster, s) := cluster.read build.host s
      .ok (cluster, some s)

/-- `getData(n)`: where blob `n` begins in `data`, or nothing behind the offsets. -/
def getData (c : ClusterImpl) (n : UInt32) : Option UInt32 := c.offsets[n.toNat]?

/-- `getSize(n)`, or nothing behind the offsets. -/
def getBlobSize (c : ClusterImpl) (n : UInt32) : Option UInt32 :=
  match c.getData (n + 1), c.getData n with
  | some next, some first => some (next - first)
  | _, _ => none

/-- The reader of a file reads every cluster into a new one. -/
theorem get_eq (build : Build) (s : IStream) :
    get build s = (getInto build new s).map fun r => (r.1, (r.2.map IStream.fail).getD false) := by
  unfold get getInto
  cases hget : s.get with
  | mk ch s' =>
    cases hflag : CompressionType.ofChar (ch.getD 0) with
    | none => simp [hflag, Except.map]
    | some compression =>
      by_cases hc : compression.isCompressed = true
      · cases ch with
        | none =>
          -- a stream without a character leaves the flag of the default compression
          cases hflag
          cases hc
        | some ch =>
          have hgood := (IStream.get_some hget).2
          cases hcodec : build.codec compression with
          | none => simp only [hflag, hc, hcodec, ↓reduceIte, Except.map]
          | some codec =>
            simp only [hflag, hc, hcodec, hgood, ↓reduceIte]
            split_ifs
            · rfl
            · rfl
      · simp [hflag, hc, Except.map]

/-- The `i`th word at the begin of a cluster, its compression flag not counted. -/
def word (bs : Bytes) (i : ℕ) : UInt32 := UInt32.ofNat (LittleEndian.decode (field bs (i * 4) 4))

/-- The number of words that are read behind the first one. -/
def moreWords (bs : Bytes) : ℕ := (word bs 0 / 4 - 1).toNat

/-- The stored offsets, taken relative to the first one, do not decrease. -/
def WordsAscend (bs : Bytes) : Prop :=
  ∀ i < moreWords bs, word bs i - word bs 0 ≤ word bs (i + 1) - word bs 0

theorem word_append_zero {bs : Bytes} (h : bs.length = 4) (rest : Bytes) :
    word (bs ++ rest) 0 = UInt32.ofNat (LittleEndian.decode bs) := by
  rw [word, Nat.zero_mul, field_front h.ge, field_all h]

theorem word_append_succ {bs : Bytes} (h : bs.length = 4) (rest : Bytes) (i : ℕ) :
    word (bs ++ rest) (i + 1) = word rest i := by
  have hle : bs.length ≤ (i + 1) * 4 := by omega
  have hsub : (i + 1) * 4 - bs.length = i * 4 := by omega
  rw [word, field_skip hle, hsub, word]

section Read
variable {host : ByteOrder}

/-- One turn for each word, as long as the stream lasts. -/
theorem readOffsets_ok {a : UInt32} {turns : ℕ} {s s' : IStream} {os : List UInt32}
    (h : readOffsets host a turns s = (os, s')) (hs : s'.fail = false) :
    os = (List.range turns).map fun i => word s.rest i - a := by
  induction turns generalizing s os with
  | zero =>
    cases h
    rfl
  | succ turns ih =>
    unfold readOffsets at h
    generalize hread : s.read 4 = r at h
    obtain ⟨bs, s₁⟩ := r
    by_cases hfail : s₁.fail = true
    · simp only [hfail] at h
      cases h
      simp [hfail] at hs
    · cases hmore : readOffsets host a turns s₁ with
      | mk os' s₂ =>
        simp only [hfail, hmore] at h
        cases h
        obtain ⟨-, hlen, hrest⟩ := IStream.read_ok hread (eq_false_of_ne_true hfail)
        have hsucc := word_append_succ hlen s₁.rest
        rw [ih hmore, hrest, List.range_succ_eq_map, List.map_cons, List.map_map,
          word_append_zero hlen, fromLittleEndian_eq]
        simp only [Function.comp_def, Nat.succ_eq_add_one, hsucc]

theorem readData_length {n : ℕ} {s s' : IStream} {data : Bytes}
    (h : readData n s = (data, s')) (hs : s'.fail = false) : data.length = n := by
  unfold readData at h
  generalize hread : s.read n = r at h
  obtain ⟨bs, s₁⟩ := r
  cases h
  obtain ⟨-, hlen, -⟩ := IStream.read_ok hread hs
  simp [List.rightpad, hlen]

/-- What a cluster holds after a read without a failure. -/
structure Decoded (bs : Bytes) (c : ClusterImpl) : Prop where
  offsets : c.offsets = (List.range (moreWords bs + 1)).map fun i => word bs i - word bs 0
  data : c.data.length = (word bs (moreWords bs) - word bs 0).toNat

theorem read_decoded {c c' : ClusterImpl} {s s' : IStream} (h : c.read host s = (c', s'))
    (hs : s'.fail = false) : s.fail = false ∧ Decoded s.rest c' := by
  unfold read at h
  generalize hread : s.read 4 = r at h
  obtain ⟨bs, s₁⟩ := r
  by_cases hfail : s₁.fail = true
  · simp only [hfail] at h
    cases h
    simp [hfail] at hs
  · obtain ⟨hgood, hlen, hrest⟩ := IStream.read_ok hread (eq_false_of_ne_true hfail)
    have hzero := word_append_zero hlen s₁.rest
    have hsucc := word_append_succ hlen s₁.rest
    rw [← hrest] at hzero hsucc
    have hmoreWords : (word s.rest 0 / 4 - 1).toNat = moreWords s.rest := rfl
    refine ⟨hgood, ?_⟩
    cases hmore : readOffsets host (word s.rest 0) (moreWords s.rest) s₁ with
    | mk os s₂ =>
      simp only [hfail, fromLittleEndian_eq, ← hzero, hmoreWords, hmore] at h
      by_cases hfail₂ : s₂.fail = true
      · simp only [hfail₂] at h
        cases h
        simp [hfail₂] at hs
      · have hos := readOffsets_ok hmore (eq_false_of_ne_true hfail₂)
        simp only [← hsucc] at hos
        have hoffsets : 0 :: os =
            (List.range (moreWords s.rest + 1)).map fun i => word s.rest i - word s.rest 0 := by
          rw [List.range_succ_eq_map, List.map_cons, List.map_map, UInt32.sub_self, hos]
          rfl
        simp only [hfail₂] at h
        cases hturns : moreWords s.rest with
        | zero =>
          rw [hturns] at hos hoffsets
          subst hos
          cases h
          exact ⟨hturns ▸ hoffsets, by simp [hturns]⟩
        | succ turns =>
          rw [hturns, List.range_succ, List.map_append, List.map_singleton] at hos
          subst hos
          cases hdata : readData (word s.rest (turns + 1) - word s.rest 0).toNat s₂ with
          | mk data s₃ =>
            simp [hdata] at h
            obtain ⟨rfl, rfl⟩ := h
            refine ⟨hoffsets, ?_⟩
            rw [hturns]
            exact readData_length hdata hs

end Read

/-- A cluster of blobs written without a compression is read back by a host of any byte order,
into any cluster and to its last byte. -/
theorem getInto_put (writer reader : Build) {compression : CompressionType}
    (hplain : compression.isCompressed = false) (blobs : List Blob)
    (hsize : blobsSize blobs < 2 ^ 32) (c : ClusterImpl) (rest : Bytes) :
    ∃ bs cluster, (ofBlobs compression blobs).put writer = .ok bs ∧
      getInto reader c ⟨bs ++ rest, false⟩ = .ok (cluster, some ⟨rest, false⟩) ∧
      cluster.getCount.toNat = blobs.length ∧
      ∀ i blob, blobs[i]? = some blob → cluster.getBlob (UInt32.ofNat i) = some blob.val := by
  refine ⟨compression.toChar :: (ofBlobs compression blobs).write writer.host,
    ofBlobs compression blobs, ?_, ?_, ?_, ?_⟩
  · rw [put, ofBlobs_compression, if_neg (by simp [hplain])]
  · simp [getInto, hplain, read_write_ofBlobs reader.host writer.host compression hsize]
  · rw [ofBlobs_getCount]
    unfold blobsSize at hsize
    apply UInt32.toNat_ofNat_of_lt'
    simp only [UInt32.size]
    omega
  · intro i blob hi
    exact getBlob_ofBlobs compression blobs hsize hi

theorem oneByte_small : ([7] : Bytes).length < 2 ^ 32 := by decide

/-- A blob of one byte and an empty one. -/
def twoBlobs : List Blob := [⟨[7], oneByte_small⟩, ⟨[], noBytes_small⟩]

theorem getInto_put_twoBlobs : ∃ bs cluster,
    (ofBlobs .zimcompNone twoBlobs).put .noCodecs = .ok bs ∧
      getInto ⟨.big, fun _ => none⟩ new ⟨bs ++ [9], false⟩ = .ok (cluster, some ⟨[9], false⟩) ∧
      cluster.getCount.toNat = twoBlobs.length ∧
      ∀ i blob, twoBlobs[i]? = some blob → cluster.getBlob (UInt32.ofNat i) = some blob.val :=
  getInto_put _ _ (by decide) _ (by decide) _ _

/-- The offsets begin with 0, do not decrease and end with the size of the data. -/
structure BlobInvariant (c : ClusterImpl) : Prop where
  first : c.offsets.head? = some 0
  ascending : c.offsets.IsChain (· ≤ ·)
  last : c.offsets.getLast?.map UInt32.toNat = some c.data.length

/-- Every blob below the count lies inside the data, and its size does not wrap around. -/
def BlobsInside (c : ClusterImpl) : Prop :=
  ∀ n < c.getCount, ∃ first next size, c.getData n = some first ∧
    c.getData (n + 1) = some next ∧ c.getBlobSize n = some size ∧
    first.toNat + size.toNat = next.toNat ∧ next.toNat ≤ c.data.length

theorem toNat_succ_of_lt {n : UInt32} {m : ℕ} (h : n.toNat + 1 < m) (hm : m ≤ 2 ^ 32) :
    (n + 1).toNat = n.toNat + 1 := by
  rw [UInt32.toNat_add]
  simp only [UInt32.toNat_one]
  omega

theorem getCount_toNat {c : ClusterImpl} (hpos : 0 < c.offsets.length)
    (hlen : c.offsets.length ≤ 2 ^ 32) : c.getCount.toNat = c.offsets.length - 1 := by
  obtain ⟨n, hn⟩ := Nat.exists_eq_succ_of_ne_zero hpos.ne'
  rw [getCount, hn, Nat.succ_eq_add_one, UInt32.ofNat_add]
  simp only [UInt32.ofNat_one, UInt32.add_sub_cancel, Nat.add_sub_cancel]
  apply UInt32.toNat_ofNat_of_lt'
  simp only [UInt32.size]
  omega

theorem BlobInvariant.inside {c : ClusterImpl} (h : c.BlobInvariant)
    (hlen : c.offsets.length ≤ 2 ^ 32) : c.BlobsInside := by
  intro n hn
  have hne : c.offsets ≠ [] := by
    intro hnil
    simpa [hnil] using h.first
  have hpos := List.length_pos_iff.mpr hne
  have hlt := UInt32.lt_iff_toNat_lt.mp hn
  rw [getCount_toNat hpos hlen] at hlt
  have hsucc : n.toNat + 1 < c.offsets.length := by omega
  have hnext := toNat_succ_of_lt hsucc hlen
  have hpair := List.pairwise_iff_getElem.mp h.ascending.pairwise
  have hle := UInt32.le_iff_toNat_le.mp
    (hpair n.toNat (n.toNat + 1) (by omega) (by omega) (Nat.lt_succ_self _))
  have hlast := h.last
  rw [List.getLast?_eq_some_getLast hne, Option.map_some, Option.some.injEq,
    List.getLast_eq_getElem hne] at hlast
  have hend : c.offsets[n.toNat + 1].toNat ≤ c.data.length := by
    rcases Nat.lt_or_ge (n.toNat + 1) (c.offsets.length - 1) with hlt' | hge
    · have hle' := UInt32.le_iff_toNat_le.mp
        (hpair (n.toNat + 1) (c.offsets.length - 1) (by omega) (by omega) hlt')
      omega
    · have heq : n.toNat + 1 = c.offsets.length - 1 := by omega
      simp only [heq, hlast, le_refl]
  have hfirst : c.getData n = some c.offsets[n.toNat] := List.getElem?_eq_getElem (by omega)
  have hsecond : c.getData (n + 1) = some c.offsets[n.toNat + 1] := by
    rw [getData, hnext]
    exact List.getElem?_eq_getElem (by omega)
  refine ⟨_, _, c.offsets[n.toNat + 1] - c.offsets[n.toNat], hfirst, hsecond, ?_, ?_, hend⟩
  · rw [getBlobSize, hfirst, hsecond]
  · rw [UInt32.toNat_sub_of_le _ _ (UInt32.le_iff_toNat_le.mpr hle)]
    omega

theorem moreWords_lt (bs : Bytes) : moreWords bs < 2 ^ 32 := UInt32.toNat_lt _

/-- Of what is read only the order of the offsets is left open. -/
theorem Decoded.invariant_iff {bs : Bytes} {c : ClusterImpl} (h : Decoded bs c) :
    c.BlobInvariant ↔ WordsAscend bs := by
  have hchain : c.offsets.IsChain (· ≤ ·) ↔ WordsAscend bs := by
    rw [h.offsets, List.isChain_map, List.isChain_range_succ]
    rfl
  constructor
  · intro hc
    exact hchain.mp hc.ascending
  · intro hbs
    refine ⟨?_, hchain.mpr hbs, ?_⟩
    · rw [h.offsets, List.range_succ_eq_map, List.map_cons, List.head?_cons, UInt32.sub_self]
    · rw [h.offsets, List.range_succ, List.map_append, List.map_singleton, List.getLast?_concat,
        Option.map_some, h.data]

theorem getInto_decoded {build : Build} {c c' : ClusterImpl} {s s' : IStream}
    (h : getInto build c s = .ok (c', some s')) (hs : s'.fail = false) :
    Decoded s.rest.tail c' := by
  unfold getInto at h
  cases hget : s.get with
  | mk ch s₁ =>
    cases hflag : CompressionType.ofChar (ch.getD 0) with
    | none =>
      simp only [hget, hflag] at h
      cases h
      cases hs
    | some compression =>
      by_cases hc : compression.isCompressed = true
      · cases hcodec : build.codec compression with
        | none => simp [hget, hflag, hc, hcodec] at h
        | some codec =>
          simp only [hget, hflag, hc, hcodec, ↓reduceIte] at h
          split_ifs at h
          cases h
      · simp only [hget, hflag, hc] at h
        cases hread : (c.setCompression compression).read build.host s₁ with
        | mk c₂ s₂ =>
          simp only [hread] at h
          cases h
          obtain ⟨hgood, hdecoded⟩ := read_decoded hread hs
          cases ch with
          | none => simp [IStream.get_none hget] at hgood
          | some ch =>
            obtain ⟨rfl, -⟩ := IStream.get_some hget
            exact hdecoded

/-- An uncompressed cluster that is read without a failure keeps its blobs inside its data exactly
if the stored offsets do not decrease. -/
theorem getInto_blobInvariant_iff {build : Build} {c c' : ClusterImpl} {s s' : IStream}
    (h : getInto build c s = .ok (c', some s')) (hs : s'.fail = false) :
    (c'.BlobInvariant ∧ c'.BlobsInside) ↔ WordsAscend s.rest.tail := by
  have hdecoded := getInto_decoded h hs
  have hlen : c'.offsets.length ≤ 2 ^ 32 := by
    have hmore := moreWords_lt s.rest.tail
    simp only [hdecoded.offsets, List.length_map, List.length_range]
    omega
  rw [hdecoded.invariant_iff.symm]
  constructor
  · intro hc
    exact hc.1
  · intro hc
    exact ⟨hc, hc.inside hlen⟩

theorem getInto_blobInvariant_iff_sorted :
    ((⟨.zimcompNone, [0, 1, 2], [5, 6]⟩ : ClusterImpl).BlobInvariant ∧
      (⟨.zimcompNone, [0, 1, 2], [5, 6]⟩ : ClusterImpl).BlobsInside) ↔
    WordsAscend [12, 0, 0, 0, 13, 0, 0, 0, 14, 0, 0, 0, 5, 6] :=
  @getInto_blobInvariant_iff .noCodecs new ⟨.zimcompNone, [0, 1, 2], [5, 6]⟩
    ⟨[1, 12, 0, 0, 0, 13, 0, 0, 0, 14, 0, 0, 0, 5, 6], false⟩ ⟨[], false⟩ (by decide +kernel) rfl

/-- The second of three offsets lies behind the data. -/
theorem not_blobInvariant : ¬ ∀ (build : Build) (c c' : ClusterImpl) (s s' : IStream),
    getInto build c s = .ok (c', some s') → s'.fail = false →
      c'.BlobInvariant ∧ c'.BlobsInside := by
  intro h
  have hinside := (h .noCodecs new ⟨.zimcompNone, [0, 100, 2], [5, 6]⟩
    ⟨[1, 12, 0, 0, 0, 112, 0, 0, 0, 14, 0, 0, 0, 5, 6], false⟩ ⟨[], false⟩
    (by decide +kernel) rfl).1.ascending
  exact absurd hinside (by decide)

end ClusterImpl
end Zim
