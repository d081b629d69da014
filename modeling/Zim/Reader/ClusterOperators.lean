import Zim.Format.DeflateFlush
import Zim.Format.KnownStream
import Zim.Reader.ClusterStreams

/-! `operator<<` and `operator>>` of a cluster (cluster.cpp) over the streams that the compression
flag chooses. -/
namespace Zim
open Cxx Compressor Fallible Stateful

/-- The stream that `operator<<` makes for a cluster, if it is compressed. -/
def CompressionType.stream : CompressionType → Option CompressStream
  | zimcompDefault => none
  | zimcompNone => none
  | zimcompZip => some .deflateStream
  | zimcompBzip2 => some .bzip2Stream
  | zimcompLzma => some .lzmaStream

/-- What the library is built with for the compressing streams: which of them are enabled, the state
that the constructor of a stream leaves, and the calls. -/
structure Compressors where
  enabled : CompressStream → Bool
  State : CompressStream → Type
  init (kind : CompressStream) : State kind
  compress (kind : CompressStream) : Compressor (State kind) UInt8

/-- The same with the record of the calls. -/
def Compressors.logged (lib : Compressors) : Compressors where
  enabled := lib.enabled
  State kind := lib.State kind × List (Call UInt8)
  init kind := (lib.init kind, [])
  compress kind := (lib.compress kind).logged

/-- The same for the decompressing streams. -/
structure Decompressors where
  enabled : UncompressBuf.Kind → Bool
  State : UncompressBuf.Kind → Type
  init (kind : UncompressBuf.Kind) : State kind
  uncompress (kind : UncompressBuf.Kind) : Compressor (State kind) UInt8

/-- What is assumed of the libraries that write and read the streams of a kind: both are enabled,
and the stream of the bytes written is one from which they are read. -/
structure Compressors.Pairs (lib : Compressors) (ulib : Decompressors) (kind : CompressStream)
    (written : Bytes) : Prop where
  writes : lib.enabled kind = true
  reads : ulib.enabled kind.reader = true
  lawful : ∃ running, kind.library.Lawful (lib.compress kind) running ∧ running (lib.init kind)
  reversed : ∃ decoding, Unpacks (ulib.uncompress kind.reader) kind.reader.library.accepted
      kind.reader.library.run decoding ∧
    kind.library.Reversed (lib.compress kind) (lib.init kind) decoding (ulib.init kind.reader)
      written

inductive OperatorError (ε : Type) where
  /-- What a stream has thrown. -/
  | stream (err : ε)
  /-- `std::runtime_error`. -/
  | runtime (text : String)

/-- An output stream that does not throw: what its sink has received. -/
structure SinkStream where
  received : Bytes
  fail : Bool
  deriving DecidableEq

namespace SinkStream

def new : SinkStream := ⟨[], false⟩

/-- `out.write(bs)` and `out.put(ch)`, to a sink that has received some bytes before and returns how
many it takes. -/
def write (sputn : Bytes → Bytes → ℕ) (out : SinkStream) (bs : Bytes) : SinkStream :=
  if out.fail then out
  else
    let n := sputn out.received bs
    ⟨out.received ++ bs.take n, n < bs.length⟩

theorem write_takesAll (bs bs' : Bytes) :
    write StreamBuf.takesAll ⟨bs, false⟩ bs' = ⟨bs ++ bs', false⟩ := by
  simp [write, StreamBuf.takesAll]

theorem foldl_write_takesAll (writes : List Bytes) (bs : Bytes) :
    writes.foldl (write StreamBuf.takesAll) ⟨bs, false⟩ = ⟨bs ++ writes.flatten, false⟩ := by
  induction writes generalizing bs with
  | nil => simp
  | cons w writes ih =>
    rw [List.foldl_cons, write_takesAll, ih, List.flatten_cons, List.append_assoc]

end SinkStream

/-- What `read` uses of its stream: `in.read(buf, n)`, which may throw, and `in.fail()`. -/
structure InStream (ε ι : Type) where
  read : ℕ → ι → Except ε (Bytes × ι)
  fail : ι → Bool

/-- An input stream that does not throw, over a source. -/
structure SourceStream (ς : Type) where
  sinksource : ς
  fail : Bool

section Streams
variable {ε ς σ : Type} (src : Source ε ς UInt8)

/-- `in.read(buf, n)`. What the source throws makes the stream bad. -/
def SourceStream.read (n : ℕ) (s : SourceStream ς) : Bytes × SourceStream ς :=
  if s.fail then ([], s)
  else match src.sgetn s.sinksource n with
    | .error _ => ([], { s with fail := true })
    | .ok (bs, sinksource) => (bs, ⟨sinksource, bs.length < n⟩)

def InStream.plain : InStream (UncompressError ε) (SourceStream ς) where
  read n s := .ok (s.read src n)
  fail s := s.fail

/-- A stream over a decompressor, set to throw where it fails. -/
def InStream.throwing (lib : UncompressLibrary) (z : Compressor σ UInt8) (turns : ℕ) :
    InStream (UncompressError ε) (UncompressBuf σ ς) where
  read n s := s.read lib z src turns n
  fail _ := false

end Streams

namespace InStream
variable {ε ι : Type}

/-- Reads that stay inside of the characters in front of the stream deliver them and do not fail. -/
structure Delivers (stream : ℕ → InStream ε ι) (holds : ι → Bytes → Prop) : Prop where
  read {s : ι} {bs : Bytes} {n : ℕ} (h : holds s bs) (hn : n ≤ bs.length) :
    ∃ s', holds s' (bs.drop n) ∧ Settles (fun turns => (stream turns).read n s) (bs.take n, s')
  good {s : ι} {bs : Bytes} (h : holds s bs) (turns : ℕ) : (stream turns).fail s = false

theorem plain_delivers {ς : Type} {src : Source ε ς UInt8} {holds : ς → Bytes → Prop}
    (hsrc : src.Serves holds) :
    Delivers (fun _ => plain src) fun s bs => s.fail = false ∧ holds s.sinksource bs where
  read {s bs n} h hn := by
    obtain ⟨hgood, hholds⟩ := h
    obtain ⟨sinksource, hget, hholds'⟩ := hsrc.sgetn n hholds
    refine ⟨⟨sinksource, false⟩, ⟨rfl, hholds'⟩, 0, fun _ _ => ?_⟩
    have hall : ¬ (bs.take n).length < n := by
      rw [List.length_take_of_le hn]
      exact lt_irrefl n
    simp only [plain, SourceStream.read, hgood, hget, hall, Bool.false_eq_true, if_false,
      decide_false]
  good h _ := h.1

open UncompressBuf in
theorem throwing_delivers {σ ς : Type} {src : Source ε ς UInt8} {holds : ς → Bytes → Prop}
    {kind : UncompressBuf.Kind} {z : Compressor σ UInt8} {decoding : σ → Bytes → Bytes → Prop}
    (hz : Unpacks z kind.library.accepted kind.library.run decoding) (hsrc : src.Serves holds)
    (behind : Bytes) :
    Delivers (throwing src kind.library z) fun s text =>
      ∃ packed, Decoding decoding holds s packed text behind where
  read {s text n} h hn := by
    obtain ⟨packed, hdecoding⟩ := h
    obtain ⟨s', packed', hdecoding', hs'⟩ := read_decoding hz hsrc hdecoding hn
    exact ⟨s', ⟨packed', hdecoding'⟩, hs'⟩
  good _ _ := rfl

variable {stream : ℕ → InStream ε ι} {holds : ι → Bytes → Prop}

/-- A read that succeeds on the characters succeeds on the stream that delivers them. -/
theorem Delivers.read_simulates (h : Delivers stream holds) {s : ι} {text bs : Bytes} {n : ℕ}
    {is : IStream} (hs : holds s text) (hread : IStream.read ⟨text, false⟩ n = (bs, is))
    (hgood : is.fail = false) :
    ∃ s', holds s' is.rest ∧ Settles (fun turns => (stream turns).read n s) (bs, s') := by
  obtain ⟨-, hlen, htext⟩ := IStream.read_ok hread hgood
  simp only at htext
  subst htext hlen
  have hlen : bs.length ≤ (bs ++ is.rest).length := by simp
  obtain ⟨s', hs', hsettles⟩ := h.read hs hlen
  rw [List.drop_left] at hs'
  rw [List.take_left] at hsettles
  exact ⟨s', hs', hsettles⟩

end InStream

namespace ClusterImpl

/-- What `write` gives to its stream: the offsets one by one, and the data. -/
def writes (host : ByteOrder) (c : ClusterImpl) : List Bytes :=
  c.offsets.map (fun o => sizeTypeBytes host (o + UInt32.ofNat (c.offsets.length * 4))) ++ [c.data]

theorem writes_flatten (host : ByteOrder) (c : ClusterImpl) :
    (c.writes host).flatten = c.write host := by
  simp [writes, write, List.flatMap_def]

section Operators
variable (host : ByteOrder)

/-- What `operator<<` does with its stream at the end: `flush()`, which reports by `badbit` what
`sync` returns, for zlib, and `end()` for the others. -/
def close {σ : Type} (kind : CompressStream) (z : Compressor σ UInt8)
    (sputn : Bytes → Bytes → ℕ) (turns : ℕ) (s : StreamBuf σ) :
    Except StreamError (StreamBuf σ) :=
  match kind with
  | .deflateStream =>
    match DeflateStreamBuf.sync z sputn turns s with
    | .error err => .error err
    | .ok (false, _) => .error .badbit
    | .ok (true, s) => .ok s
  | .bzip2Stream => s.finish Bzip2StreamBuf.library z sputn turns
  | .lzmaStream => s.finish LzmaStreamBuf.library z sputn turns

/-- `operator<<`, with streams that have some buffer. -/
def putThrough (lib : Compressors) (sputn : Bytes → Bytes → ℕ) (bufsize turns : ℕ)
    (c : ClusterImpl) : Except (OperatorError StreamError) SinkStream :=
  let out := SinkStream.new.write sputn [c.compression.toChar]
  match c.compression.stream with
  | none => .ok ((c.writes host).foldl (SinkStream.write sputn) out)
  | some kind =>
    if lib.enabled kind then
      let sputn := fun sink => sputn (out.received ++ sink)
      match StreamBuf.writeAll kind.library (lib.compress kind) sputn turns
          (.new (lib.init kind) bufsize) (c.writes host) >>=
            close kind (lib.compress kind) sputn turns with
      | .error err => .error (.stream err)
      | .ok os => .ok { out with received := out.received ++ os.sink }
    else .error (.runtime c.compression.notEnabled)

section Read
variable {ε ι : Type} (stream : InStream ε ι)

/-- The turns of `while (--n)` with any stream. -/
def readOffsetsIn (a : UInt32) : ℕ → ι → Except ε (List UInt32 × ι)
  | 0, s => .ok ([], s)
  | n + 1, s => do
    let (bs, s) ← stream.read 4 s
    if stream.fail s then return ([], s)
    else
      let (offsets, s) ← readOffsetsIn a n s
      return ((UInt32.ofNat (fromLittleEndian host bs) - a) :: offsets, s)

/-- `read(in)` with any stream. -/
def readIn (c : ClusterImpl) (s : ι) : Except ε (ClusterImpl × ι) := do
  let (bs, s) ← stream.read 4 s
  if stream.fail s then return (c, s)
  else
    let a := UInt32.ofNat (fromLittleEndian host bs)
    let (offsets, s) ← readOffsetsIn host stream a (a / 4 - 1).toNat s
    let c := { c with offsets := 0 :: offsets, data := [] }
    if stream.fail s then return (c, s)
    else if h : offsets ≠ [] then
      let n := (offsets.getLast h - 0).toNat
      let (data, s) ← stream.read n s
      return ({ c with data := data.rightpad n 0 }, s)
    else return (c, s)

end Read

/-- `operator>>`, with streams that have some buffer. An unknown flag, with which it fails, is not
kept. -/
def getThrough {ε ς : Type} (lib : Decompressors) (src : Source ε ς UInt8) (bufsize turns : ℕ)
    (c : ClusterImpl) (in' : SourceStream ς) :
    Except (OperatorError (UncompressError ε)) (ClusterImpl × SourceStream ς) :=
  let (bs, in') := in'.read src 1
  match CompressionType.ofChar (bs.headD 0) with
  | none => .ok (c, { in' with fail := true })
  | some compression =>
    let c := c.setCompression compression
    match compression.stream.map CompressStream.reader with
    | none =>
      match readIn host (.plain src) c in' with
      | .error err => .error (.stream err)
      | .ok (c, in') => .ok (c, in')
    | some kind =>
      if lib.enabled kind then
        match readIn host (.throwing src kind.library (lib.uncompress kind) turns) c
            (.new (lib.init kind) bufsize in'.sinksource) with
        | .error err => .error (.stream err)
        | .ok (c, is) => .ok (c, { in' with sinksource := is.sinksource })
      else .error (.runtime compression.notEnabled)

end Operators

section Simulation
variable {ε ι : Type} {stream : ℕ → InStream ε ι} {holds : ι → Bytes → Prop} {host : ByteOrder}
  {s : ι} {text : Bytes} {is : IStream}

theorem readOffsetsIn_simulates (h : InStream.Delivers stream holds) (a : UInt32) (n : ℕ)
    {offsets : List UInt32} (hs : holds s text)
    (hread : readOffsets host a n ⟨text, false⟩ = (offsets, is)) (hgood : is.fail = false) :
    ∃ s', holds s' is.rest ∧
      Settles (fun turns => readOffsetsIn host (stream turns) a n s) (offsets, s') := by
  induction n generalizing s text offsets with
  | zero =>
    cases hread
    exact ⟨s, hs, settles_const _⟩
  | succ n ih =>
    rw [readOffsets] at hread
    generalize hfour : IStream.read ⟨text, false⟩ 4 = r at hread
    obtain ⟨bs, rest₁, fail₁⟩ := r
    cases fail₁ with
    | true =>
      simp only [if_true] at hread
      cases hread
      cases hgood
    | false =>
    simp only [Bool.false_eq_true, if_false] at hread
    generalize hmore : readOffsets host a n ⟨rest₁, false⟩ = r at hread
    obtain ⟨more, is₂⟩ := r
    cases hread
    obtain ⟨s₁, hs₁, m₁, hm₁⟩ := h.read_simulates hs hfour rfl
    obtain ⟨s₂, hs₂, m₂, hm₂⟩ := ih hs₁ hmore
    refine ⟨s₂, hs₂, max m₁ m₂, fun turns hturns => ?_⟩
    refine bind_eq_ok.mpr ⟨_, hm₁ turns (le_of_max_le_left hturns), ?_⟩
    simp only [h.good hs₁, Bool.false_eq_true, if_false]
    exact bind_eq_ok.mpr ⟨_, hm₂ turns (le_of_max_le_right hturns), rfl⟩

/-- A cluster that can be read from some characters is read from the stream that delivers them. -/
theorem readIn_simulates (h : InStream.Delivers stream holds) {c c' : ClusterImpl}
    (hs : holds s text) (hread : c.read host ⟨text, false⟩ = (c', is)) (hgood : is.fail = false) :
    ∃ s', holds s' is.rest ∧ Settles (fun turns => readIn host (stream turns) c s) (c', s') := by
  unfold ClusterImpl.read at hread
  generalize hfour : IStream.read ⟨text, false⟩ 4 = r at hread
  obtain ⟨bs, rest₁, fail₁⟩ := r
  cases fail₁ with
  | true =>
    simp only [if_true] at hread
    cases hread
    cases hgood
  | false =>
  obtain ⟨s₁, hs₁, m₁, hm₁⟩ := h.read_simulates hs hfour rfl
  simp only [Bool.false_eq_true, if_false] at hread
  generalize ha : UInt32.ofNat (fromLittleEndian host bs) = a at hread
  generalize hmore : readOffsets host a (a / 4 - 1).toNat ⟨rest₁, false⟩ = r at hread
  obtain ⟨offsets, rest₂, fail₂⟩ := r
  cases fail₂ with
  | true =>
    simp only [if_true] at hread
    cases hread
    cases hgood
  | false =>
  obtain ⟨s₂, hs₂, m₂, hm₂⟩ := readOffsetsIn_simulates h a _ hs₁ hmore rfl
  simp only [Bool.false_eq_true, if_false] at hread
  by_cases hsome : offsets ≠ []
  · rw [dif_pos hsome, readData] at hread
    generalize hdata : IStream.read ⟨rest₂, false⟩ (offsets.getLast hsome - 0).toNat = r at hread
    obtain ⟨data, is₃⟩ := r
    cases hread
    obtain ⟨s₃, hs₃, m₃, hm₃⟩ := h.read_simulates hs₂ hdata hgood
    refine ⟨s₃, hs₃, max m₁ (max m₂ m₃), fun turns hturns => ?_⟩
    refine bind_eq_ok.mpr ⟨_, hm₁ turns (by omega), ?_⟩
    simp only [h.good hs₁, Bool.false_eq_true, if_false, ha]
    refine bind_eq_ok.mpr ⟨_, hm₂ turns (by omega), ?_⟩
    simp only [h.good hs₂, Bool.false_eq_true, if_false, dif_pos hsome]
    exact bind_eq_ok.mpr ⟨_, hm₃ turns (by omega), rfl⟩
  · rw [dif_neg hsome] at hread
    cases hread
    refine ⟨s₂, hs₂, max m₁ m₂, fun turns hturns => ?_⟩
    refine bind_eq_ok.mpr ⟨_, hm₁ turns (by omega), ?_⟩
    simp only [h.good hs₁, Bool.false_eq_true, if_false, ha]
    refine bind_eq_ok.mpr ⟨_, hm₂ turns (by omega), ?_⟩
    simp only [h.good hs₂, Bool.false_eq_true, if_false, dif_neg hsome]
    rfl

end Simulation

section Put
variable (lib : Compressors) (host : ByteOrder) (bufsize : ℕ) (c : ClusterImpl)

theorem putThrough_plain (hplain : c.compression.stream = none) (turns : ℕ) :
    putThrough host lib StreamBuf.takesAll bufsize turns c =
      .ok ⟨c.compression.toChar :: c.write host, false⟩ := by
  simp only [putThrough, hplain, SinkStream.new, SinkStream.write_takesAll,
    SinkStream.foldl_write_takesAll, writes_flatten]
  rfl

/-- The sink has the flag and what the compressor gave for the bytes of the cluster. -/
theorem putThrough_stream {kind : CompressStream} (hstream : c.compression.stream = some kind)
    (hkind : kind ≠ .deflateStream) (henabled : lib.enabled kind = true)
    {running : lib.State kind → Prop} (hz : kind.library.Lawful (lib.compress kind) running)
    (hinit : running (lib.init kind)) (hsize : 0 < bufsize) :
    ∃ calls, taken calls = c.write host ∧
      Whole (lib.compress kind) kind.library.accepted kind.library.run kind.library.finish
        StreamBuf.zbufferSize kind.library.streamEnd (lib.init kind) calls ∧
      Settles (fun turns => putThrough host lib.logged StreamBuf.takesAll bufsize turns c)
        ⟨c.compression.toChar :: given calls, false⟩ := by
  obtain ⟨os, ⟨m, hm⟩, htaken, hsink, hwhole⟩ := StreamBuf.compress_given kind (lib.compress kind)
    running hz (lib.init kind) hinit bufsize hsize (c.writes host)
  rw [writes_flatten] at htaken
  refine ⟨os.stream.2, htaken, hwhole, m, fun turns hturns => ?_⟩
  have hclose : close kind (lib.logged.compress kind) StreamBuf.takesAll turns =
      StreamBuf.finish kind.library (lib.compress kind).logged StreamBuf.takesAll turns := by
    cases kind with
    | deflateStream => exact absurd rfl hkind
    | bzip2Stream => rfl
    | lzmaStream => rfl
  have hall : StreamBuf.writeAll kind.library (lib.logged.compress kind) StreamBuf.takesAll turns
      (.new (lib.logged.init kind) bufsize) (c.writes host) >>=
        close kind (lib.logged.compress kind) StreamBuf.takesAll turns = .ok os := by
    rw [hclose]
    exact hm turns hturns
  have henabled' : lib.logged.enabled kind = true := henabled
  have hsputn : (fun sink => StreamBuf.takesAll ([] ++ [c.compression.toChar] ++ sink)) =
    StreamBuf.takesAll := rfl
  simp only [putThrough, hstream, henabled', if_true, SinkStream.new, SinkStream.write_takesAll]
  rw [hsputn, hall]
  exact congrArg (fun bs => Except.ok (SinkStream.mk (c.compression.toChar :: bs) false)) hsink

end Put

section Get
variable {ε ς : Type} {src : Source ε ς UInt8} {holds : ς → Bytes → Prop}
  {compression : CompressionType} {blobs : List Blob} {sinksource : ς} {packed behind : Bytes}

theorem getThrough_plain (lib : Decompressors) (hsrc : src.Serves holds)
    (hplain : compression.stream = none) (writer reader : ByteOrder)
    (hblobs : blobsSize blobs < 2 ^ 32) (bufsize : ℕ)
    (hholds : holds sinksource
      (compression.toChar :: ((ofBlobs compression blobs).write writer ++ behind)))
    (c : ClusterImpl) :
    ∃ in', in'.fail = false ∧ Settles (fun turns => getThrough reader lib src bufsize turns c
      ⟨sinksource, false⟩) (ofBlobs compression blobs, in') := by
  obtain ⟨source', hget, hholds'⟩ := hsrc.sgetn 1 hholds
  have hread := read_write_ofBlobs reader writer compression hblobs c behind
  obtain ⟨in', ⟨hgood, -⟩, m, hm⟩ := readIn_simulates (InStream.plain_delivers hsrc)
    (s := ⟨source', false⟩) ⟨rfl, hholds'⟩ hread rfl
  refine ⟨in', hgood, m, fun turns hturns => ?_⟩
  simp [getThrough, SourceStream.read, hget, hplain, hm turns hturns]

open UncompressBuf in
theorem getThrough_stream {lib : Decompressors} {kind : CompressStream}
    {decoding : lib.State kind.reader → Bytes → Bytes → Prop}
    (henabled : lib.enabled kind.reader = true)
    (hu : Unpacks (lib.uncompress kind.reader) kind.reader.library.accepted
      kind.reader.library.run decoding) (hsrc : src.Serves holds)
    (hstream : compression.stream = some kind) (writer reader : ByteOrder)
    (hblobs : blobsSize blobs < 2 ^ 32)
    (hfirst : decoding (lib.init kind.reader) packed ((ofBlobs compression blobs).write writer))
    {bufsize : ℕ} (hsize : 2 ≤ bufsize)
    (hholds : holds sinksource (compression.toChar :: (packed ++ behind))) (c : ClusterImpl) :
    ∃ in', in'.fail = false ∧ Settles (fun turns => getThrough reader lib src bufsize turns c
      ⟨sinksource, false⟩) (ofBlobs compression blobs, in') := by
  obtain ⟨source', hget, hholds'⟩ := hsrc.sgetn 1 hholds
  have hread := read_write_ofBlobs reader writer compression hblobs c []
  rw [List.append_nil] at hread
  obtain ⟨is, -, m, hm⟩ := readIn_simulates (InStream.throwing_delivers hu hsrc behind)
    ⟨packed, decoding_new hsize hfirst hholds'⟩ hread rfl
  refine ⟨⟨is.sinksource, false⟩, rfl, m, fun turns hturns => ?_⟩
  simp [getThrough, SourceStream.read, hget, hstream, henabled, hm turns hturns]

end Get

/-- Wherever an archive of one or more parts has the bytes, `operator>>` behind a seek to them gives
the cluster, whatever it was before. -/
def ReadBack (lib : Decompressors) (reader : ByteOrder) (bufsize : ℕ) (bs : Bytes)
    (cluster : ClusterImpl) : Prop :=
  ∀ (fs : Bytes → Option Content) (chosen : ℕ → ℕ) (fname front behind : Bytes)
    (fbufsize noOpenFiles : UInt32) (c : ClusterImpl), 0 < fbufsize →
    archive fs fname = front ++ bs ++ behind → front.length < 2 ^ 64 →
    ∃ sb sb' in', Streambuf.new fs fname fbufsize noOpenFiles = .ok sb ∧
      Streambuf.seekg fs (UInt64.ofNat front.length) sb = .ok ⟨⟩ sb' ∧ in'.fail = false ∧
      Settles (fun turns => getThrough reader lib (Streambuf.source fs chosen) bufsize turns c
        ⟨sb', false⟩) (cluster, in')

/-- The seek to some bytes of an archive stands before these. -/
theorem seekg_archive {fs : Bytes → Option Content} {fname front behind : Bytes}
    (harchive : archive fs fname = front ++ behind) (hsome : behind ≠ [])
    (hfront : front.length < 2 ^ 64) {fbufsize : UInt32} (hfbufsize : 0 < fbufsize)
    (noOpenFiles : UInt32) :
    ∃ sb sb', Streambuf.new fs fname fbufsize noOpenFiles = .ok sb ∧
      Streambuf.seekg fs (UInt64.ofNat front.length) sb = .ok ⟨⟩ sb' ∧
      Streambuf.Reads fs (parts fs fname) sb' behind := by
  have hparts : parts fs fname ≠ [] := by
    intro hnone
    simp [archive, hnone, hsome] at harchive
  obtain ⟨sb, hnew, hready⟩ := Streambuf.new_ready noOpenFiles hfbufsize hparts
  have hoff : (UInt64.ofNat front.length).toNat = front.length :=
    UInt64.toNat_ofNat_of_lt' hfront
  have hwhole : (parts fs fname).flatMap (Streambuf.fileBytes fs) = front ++ behind := harchive
  have hinside : (UInt64.ofNat front.length).toNat ≤
      ((parts fs fname).flatMap (Streambuf.fileBytes fs)).length := by
    rw [hoff, hwhole, List.length_append]
    omega
  obtain ⟨sb', hseek, hreads⟩ := Streambuf.seekg_inside hparts (parts_exist fs fname) hready hinside
  rw [hoff, hwhole, List.drop_left] at hreads
  exact ⟨sb, sb', hnew, hseek, hreads⟩

/-- A cluster that `operator<<` writes plainly, or through a stream that it ends, is read back by
`operator>>`, which finds the stream by the flag, from anywhere in an archive. -/
theorem getThrough_putThrough (lib : Compressors) (ulib : Decompressors)
    (compression : CompressionType) (hzip : compression ≠ .zimcompZip) (writer reader : ByteOrder)
    (blobs : List Blob) (hblobs : blobsSize blobs < 2 ^ 32) (bufsize ubufsize : ℕ)
    (hsize : 0 < bufsize) (husize : 2 ≤ ubufsize)
    (hlib : ∀ kind, compression.stream = some kind →
      lib.Pairs ulib kind ((ofBlobs compression blobs).write writer)) :
    ∃ out, out.fail = false ∧
      Settles (fun turns => putThrough writer lib.logged StreamBuf.takesAll bufsize turns
        (ofBlobs compression blobs)) out ∧
      ReadBack ulib reader ubufsize out.received (ofBlobs compression blobs) := by
  have hflag := ofBlobs_compression compression blobs
  cases hstream : compression.stream with
  | none =>
    refine ⟨_, rfl, ⟨0, fun turns _ => putThrough_plain _ _ _ _ (by rwa [hflag]) turns⟩, ?_⟩
    intro fs chosen fname front behind fbufsize noOpenFiles c hfbufsize harchive hfront
    rw [hflag, List.append_assoc] at harchive
    obtain ⟨sb, sb', hnew, hseek, hreads⟩ :=
      seekg_archive harchive (List.cons_ne_nil _ _) hfront hfbufsize noOpenFiles
    obtain ⟨in', hgood, hget⟩ := getThrough_plain ulib
      (Streambuf.source_serves fs chosen (parts_nodup fs fname) (parts_exist fs fname)) hstream
      writer reader hblobs ubufsize hreads c
    exact ⟨sb, sb', in', hnew, hseek, hgood, hget⟩
  | some kind =>
    have hkind : kind ≠ .deflateStream := by
      rintro rfl
      cases compression with
      | zimcompZip => exact hzip rfl
      | _ => cases hstream
    obtain ⟨hwrites, hreads, ⟨running, hz, hinit⟩, decoding, hu, hreversed⟩ := hlib kind hstream
    obtain ⟨calls, htaken, hwhole, hput⟩ := putThrough_stream lib writer bufsize
      (ofBlobs compression blobs) (by rwa [hflag]) hkind hwrites hz hinit hsize
    refine ⟨_, rfl, hput, ?_⟩
    intro fs chosen fname front behind fbufsize noOpenFiles c hfbufsize harchive hfront
    rw [hflag, List.append_assoc] at harchive
    obtain ⟨sb, sb', hnew, hseek, hsb⟩ :=
      seekg_archive harchive (List.cons_ne_nil _ _) hfront hfbufsize noOpenFiles
    obtain ⟨in', hgood, hget⟩ := getThrough_stream hreads hu
      (Streambuf.source_serves fs chosen (parts_nodup fs fname) (parts_exist fs fname)) hstream
      writer reader hblobs (hreversed calls hwhole htaken) husize hsb c
    exact ⟨sb, sb', in', hnew, hseek, hgood, hget⟩

section Two

/-- The blobs "abc" and "de". -/
def two : List Blob := [⟨[97, 98, 99], by decide⟩, ⟨[100, 101], by decide⟩]

def twoText : Bytes := [12, 0, 0, 0, 15, 0, 0, 0, 17, 0, 0, 0, 97, 98, 99, 100, 101]

theorem write_two (compression : CompressionType) :
    (ofBlobs compression two).write .little = twoText := by
  cases compression <;> rfl

/-- What libbz2 and liblzma make of them, the latter with the preset of `operator<<`. -/
def twoStream : CompressStream → Bytes
  | .deflateStream => []
  | .bzip2Stream => [
    66, 90, 104, 57, 49, 65, 89, 38, 83, 89, 100, 49, 121, 123, 0, 0, 4, 225, 0, 64, 4, 160, 0,
    62, 0, 32, 0, 49, 6, 76, 65, 25, 52, 209, 161, 180, 168, 66, 30, 244, 241, 119, 36, 83, 133,
    9, 6, 67, 23, 151, 176]
  | .lzmaStream => [
    253, 55, 122, 88, 90, 0, 0, 1, 105, 34, 222, 54, 2, 0, 33, 1, 20, 0, 0, 0, 255, 231, 236, 9,
    1, 0, 16, 12, 0, 0, 0, 15, 0, 0, 0, 17, 0, 0, 0, 97, 98, 99, 100, 101, 0, 0, 0, 0, 147, 53,
    153, 131, 0, 1, 37, 17, 62, 69, 197, 162, 144, 66, 153, 13, 1, 0, 0, 0, 0, 1, 89, 90]

/-- libbz2 puts out the stream at its end, liblzma the header before that. -/
def twoCompressors : Compressors where
  enabled kind := kind ≠ .deflateStream
  State _ := Bytes
  init := twoStream
  compress
    | .deflateStream => KnownStream.compressor DeflateStreamBuf.library 0 0 0
    | .bzip2Stream => KnownStream.compressor Bzip2StreamBuf.library 1 3 51
    | .lzmaStream => KnownStream.compressor LzmaStreamBuf.library 0 0 48

/-- `BZ_STREAM_END` for a stream that is done. -/
def ended (ret : ℤ) : ℤ := if ret = 1 then 4 else ret

theorem accepted_ended (ret : ℤ) (h : Bunzip2StreamBuf.library.accepted ret = true) :
    Bunzip2StreamBuf.library.accepted (ended ret) = true := by
  rw [ended]
  split_ifs
  · rfl
  · exact h

/-- The chunk of liblzma has the text as it is, from byte 27 on. -/
def twoDecompressors : Decompressors where
  enabled kind := kind ≠ .inflateStream
  State _ := ℕ
  init _ := 0
  uncompress
    | .inflateStream => (KnownStream.reader [] [] 0).decompressor
    | .bunzip2Stream =>
      (KnownStream.reader (twoStream .bzip2Stream) twoText 34).decompressor.mapRet ended
    | .unlzmaStream => (KnownStream.reader (twoStream .lzmaStream) twoText 27).decompressor

theorem pairs_bzip2 : twoCompressors.Pairs twoDecompressors .bzip2Stream twoText where
  writes := rfl
  reads := rfl
  lawful := ⟨_, KnownStream.compressor_lawful (by decide) (by decide) rfl rfl (by decide), trivial⟩
  reversed := by
    have hreader : Unpacks (KnownStream.reader (twoStream .bzip2Stream) twoText 34).decompressor
        Bunzip2StreamBuf.library.accepted Bunzip2StreamBuf.library.run _ :=
      Transducer.unpacks rfl rfl _
    refine ⟨_, hreader.mapRet accepted_ended, fun calls hwhole _ => ?_⟩
    rw [KnownStream.given_whole (by decide) hwhole]
    exact KnownStream.decoding_reader (by decide)

theorem pairs_lzma : twoCompressors.Pairs twoDecompressors .lzmaStream twoText where
  writes := rfl
  reads := rfl
  lawful := ⟨_, KnownStream.compressor_lawful (by decide) (by decide) rfl rfl (by decide), trivial⟩
  reversed := by
    refine ⟨_, Transducer.unpacks rfl rfl _, fun calls hwhole _ => ?_⟩
    rw [KnownStream.given_whole (by decide) hwhole]
    exact KnownStream.decoding_reader (by decide)

/-- The two blobs go through buffers of eight bytes. -/
theorem getThrough_putThrough_two :
    (∃ out, out.fail = false ∧
      Settles (fun turns => putThrough .little twoCompressors.logged StreamBuf.takesAll 8 turns
        (ofBlobs .zimcompBzip2 two)) out ∧
      ReadBack twoDecompressors .big 16 out.received (ofBlobs .zimcompBzip2 two)) ∧
    ∃ out, out.fail = false ∧
      Settles (fun turns => putThrough .little twoCompressors.logged StreamBuf.takesAll 8 turns
        (ofBlobs .zimcompLzma two)) out ∧
      ReadBack twoDecompressors .big 16 out.received (ofBlobs .zimcompLzma two) := by
  constructor
  · refine getThrough_putThrough _ _ .zimcompBzip2 (by decide) .little .big two (by decide) 8 16
      (by decide) (by decide) fun kind hkind => ?_
    cases hkind
    rw [write_two]
    exact pairs_bzip2
  · refine getThrough_putThrough _ _ .zimcompLzma (by decide) .little .big two (by decide) 8 16
      (by decide) (by decide) fun kind hkind => ?_
    cases hkind
    rw [write_two]
    exact pairs_lzma

end Two

end ClusterImpl
end Zim
