import Zim.Format.ClusterBlobs
import Zim.Format.StoredInflate
import Zim.Format.UncompressStream
import Zim.Reader.SplitArchive

/-! What is written through a compressing stream and read back through the decompressing one, as
`operator<<` and `operator>>` do with clusters (cluster.cpp), the latter out of an archive. -/
namespace Zim
open Cxx Compressor Fallible

namespace UncompressBuf
variable {σ ς ε : Type}

section Reads
variable (lib : UncompressLibrary) (z : Compressor σ UInt8) (src : Source ε ς UInt8)

/-- Reads of some lengths, one after another. -/
def readAll (turns : ℕ) :
    List ℕ → UncompressBuf σ ς → Except (UncompressError ε) (List Bytes × UncompressBuf σ ς)
  | [], s => .ok ([], s)
  | n :: ns, s =>
    match sgetn lib z src turns n s with
    | .error err => .error err
    | .ok (bs, s) =>
      match readAll turns ns s with
      | .error err => .error err
      | .ok (more, s) => .ok (bs :: more, s)

end Reads

variable {kind : Kind} {z : Compressor σ UInt8} {decoding : σ → Bytes → Bytes → Prop}
  {src : Source ε ς UInt8} {holds : ς → Bytes → Prop} {s : UncompressBuf σ ς}
  {packed text behind : Bytes}

theorem readAll_decoding (hz : Unpacks z kind.library.accepted kind.library.run decoding)
    (hsrc : src.Serves holds) (ns : List ℕ) (h : Decoding decoding holds s packed text behind)
    (hend : ns.sum ≤ text.length ∨ behind = []) :
    ∃ s', Settles (fun turns => readAll kind.library z src turns ns s)
      (Streambuf.slices text ns, s') := by
  induction ns generalizing s packed text with
  | nil => exact ⟨s, settles_const _⟩
  | cons n ns ih =>
    rw [List.sum_cons] at hend
    obtain ⟨s₁, packed₁, h₁, m₁, hm₁⟩ := sgetn_decoding hz hsrc n h (hend.imp_left (by omega))
    obtain ⟨s₂, m₂, hm₂⟩ := ih h₁ (hend.imp_left (by rw [List.length_drop]; omega))
    refine ⟨s₂, max m₁ m₂, fun turns hturns => ?_⟩
    simp only [readAll, hm₁ turns (le_of_max_le_left hturns),
      hm₂ turns (le_of_max_le_right hturns), Streambuf.slices]

theorem decoding_new {stream : σ} {sinksource : ς} {bufsize : ℕ} (hsize : 2 ≤ bufsize)
    (hstream : decoding stream packed text) (hholds : holds sinksource (packed ++ behind)) :
    Decoding decoding holds (new stream bufsize sinksource) packed text behind where
  size := Nat.div_pos hsize two_pos
  stream := ⟨text, hstream, rfl⟩
  input := ⟨packed ++ behind, hholds, rfl⟩

/-- Whatever the source has available at a time, and however the decompressor takes its input and
gives its output, reads deliver the text of the stream piece by piece. Reads beyond its end come
out short if nothing lies behind the stream. -/
theorem readAll_text (kind : Kind) (z : Compressor σ UInt8) (decoding : σ → Bytes → Bytes → Prop)
    (hz : Unpacks z kind.library.accepted kind.library.run decoding) (src : Source ε ς UInt8)
    (holds : ς → Bytes → Prop) (hsrc : src.Serves holds) (stream : σ) (bufsize : ℕ)
    (hsize : 2 ≤ bufsize) (hstream : decoding stream packed text) (sinksource : ς)
    (hholds : holds sinksource (packed ++ behind)) (ns : List ℕ)
    (hend : ns.sum ≤ text.length ∨ behind = []) :
    ∃ s', Settles (fun turns => readAll kind.library z src turns ns
      (new stream bufsize sinksource)) (Streambuf.slices text ns, s') :=
  readAll_decoding hz hsrc ns (decoding_new hsize hstream hholds) hend

/-- Reads of 20 bytes and of 20 more, of which there are ten, three bytes of the source being
available at a time. -/
theorem readAll_text_thirty : ∃ s', Settles (fun turns => readAll InflateStreamBuf.library
      StoredBlocks.inflate (Source.memory fun _ => 3 : Source Unit Bytes UInt8) turns [20, 20]
      (new StoredBlocks.inflateInit 16 (StoredBlocks.stream StoredBlocks.thirty)))
    (Streambuf.slices StoredBlocks.thirty [20, 20], s') :=
  readAll_text .inflateStream StoredBlocks.inflate _ (Transducer.unpacks rfl rfl _) _ Eq
    (Source.memory_serves _) _ 16 (by decide)
    (StoredBlocks.decoding_stream (by decide)) _
    (List.append_nil _).symm [20, 20] (.inr rfl)

end UncompressBuf

/-- The stream that reads what a stream has written. -/
def CompressStream.reader : CompressStream → UncompressBuf.Kind
  | deflateStream => .inflateStream
  | bzip2Stream => .bunzip2Stream
  | lzmaStream => .unlzmaStream

/-- The whole streams of a compressor stand for what was written, for a decompressor in its first
state. -/
def Library.Reversed {σ τ : Type} (lib : Library) (z : Compressor σ UInt8) (init : σ)
    (decoding : τ → Bytes → Bytes → Prop) (first : τ) (written : Bytes) : Prop :=
  ∀ calls, Whole z lib.accepted lib.run lib.finish StreamBuf.zbufferSize lib.streamEnd init calls →
    taken calls = written → decoding first (given calls) written

namespace StreamBuf
variable {σ : Type}

/-- A stream to its end: its compressor has taken what was written in the calls of a whole
stream. -/
theorem compress_given (kind : CompressStream) (z : Compressor σ UInt8) (running : σ → Prop)
    (hz : kind.library.Lawful z running) (init : σ) (hinit : running init) (bufsize : ℕ)
    (hsize : 0 < bufsize) (writes : List Bytes) :
    ∃ s, Settles (fun turns => compress kind.library z.logged takesAll turns
        (new (init, []) bufsize) writes) s ∧
      taken s.stream.2 = writes.flatten ∧ s.sink = given s.stream.2 ∧
      Whole z kind.library.accepted kind.library.run kind.library.finish zbufferSize
        kind.library.streamEnd init s.stream.2 := by
  obtain ⟨s₁, hfed, hs₁⟩ := writeAll_fed hz (fed_new init hinit hsize) writes
  obtain ⟨s₂, hdelivered, hs₂⟩ := endLoop_delivered kind.accepted_streamEnd
    (hz.finishes _ _ hfed.running) hfed.written hfed.sent
  have hs : Settles (fun turns => compress kind.library z.logged takesAll turns
      (new (init, []) bufsize) writes) s₂ := hs₁.bind hs₂
  obtain ⟨m, hm⟩ := hs
  exact ⟨s₂, ⟨m, hm⟩, hdelivered.1, hdelivered.2, compress_whole (hm m le_rfl)⟩

end StreamBuf

theorem StoredBlocks.reversed {written : Bytes} (hlen : written.length < 2 ^ 16) :
    DeflateStreamBuf.library.Reversed StoredBlocks.deflate StoredBlocks.init
      StoredBlocks.inflater.Decoding StoredBlocks.inflateInit written := by
  intro calls hwhole htaken
  rw [StoredBlocks.given_whole hwhole, htaken]
  exact StoredBlocks.decoding_stream hlen

section RoundTrip
variable {σ τ ς ε : Type} {z : Compressor σ UInt8} {running : σ → Prop}
  {u : Compressor τ UInt8} {decoding : τ → Bytes → Bytes → Prop} {src : Source ε ς UInt8}
  {holds : ς → Bytes → Prop}

/-- What is written through a stream, in pieces of any size, is read back through the stream of the
same kind, in pieces of any size, whatever follows in the source. -/
theorem readAll_compress (kind : CompressStream)
    (hz : kind.library.Lawful z running) (init : σ) (hinit : running init)
    (hu : Unpacks u kind.reader.library.accepted kind.reader.library.run decoding) (first : τ)
    (hsrc : src.Serves holds) (bufsize ubufsize : ℕ) (hsize : 0 < bufsize) (husize : 2 ≤ ubufsize)
    (writes : List Bytes)
    (hreverse : kind.library.Reversed z init decoding first writes.flatten) :
    ∃ s, Settles (fun turns => StreamBuf.compress kind.library z.logged StreamBuf.takesAll turns
        (.new (init, []) bufsize) writes) s ∧
      ∀ sinksource behind, holds sinksource (s.sink ++ behind) →
        ∀ ns : List ℕ, ns.sum ≤ writes.flatten.length →
          ∃ s', Settles (fun turns => UncompressBuf.readAll kind.reader.library u src turns ns
            (.new first ubufsize sinksource)) (Streambuf.slices writes.flatten ns, s') := by
  obtain ⟨s, hs, htaken, hsink, hwhole⟩ :=
    StreamBuf.compress_given kind z running hz init hinit bufsize hsize writes
  refine ⟨s, hs, fun sinksource behind hholds ns hns => ?_⟩
  rw [hsink] at hholds
  exact UncompressBuf.readAll_decoding hu hsrc ns
    (UncompressBuf.decoding_new husize (hreverse _ hwhole htaken) hholds) (.inl hns)

theorem readAll_compress_thirty :
    ∃ s, Settles (fun turns => StreamBuf.compress DeflateStreamBuf.library
        StoredBlocks.deflate.logged StreamBuf.takesAll turns (.new (StoredBlocks.init, []) 8)
        [StoredBlocks.thirty, [1, 2]]) s ∧
      ∀ sinksource behind, sinksource = s.sink ++ behind →
        ∀ ns : List ℕ, ns.sum ≤ [StoredBlocks.thirty, [1, 2]].flatten.length →
          ∃ s', Settles (fun turns => UncompressBuf.readAll InflateStreamBuf.library
            StoredBlocks.inflate (Source.memory fun _ => 3 : Source Unit Bytes UInt8) turns ns
            (.new StoredBlocks.inflateInit 16 sinksource))
            (Streambuf.slices [StoredBlocks.thirty, [1, 2]].flatten ns, s') :=
  readAll_compress .deflateStream
    (StoredBlocks.deflate_lawful (by decide) rfl rfl) StoredBlocks.init rfl
    (Transducer.unpacks rfl rfl _) StoredBlocks.inflateInit (Source.memory_serves _)
    8 16 (by decide) (by decide) _ (StoredBlocks.reversed (by decide))

end RoundTrip

namespace Streambuf
variable (fs : Bytes → Option Content) (chosen : ℕ → ℕ)

/-- `zim::streambuf` as the source of another stream buffer. It leaves `showmanyc()` as the
standard library has it. -/
def source : Source StreambufError Streambuf UInt8 where
  inAvail sb := sb.avail.length
  sgetn sb n := match sgetn fs chosen n sb with
    | .ok bs sb => .ok (bs, sb)
    | .error err _ => .error err

theorem source_serves {names : List Bytes} (hnodup : names.Nodup)
    (hexists : ∀ n ∈ names, (fs n).isSome) : (source fs chosen).Serves (Reads fs names) where
  inAvail_le := by
    intro sb bs h
    obtain ⟨front, later, pos, -, -, rfl⟩ := h.current
    simp only [source, List.length_append]
    omega
  sgetn := by
    intro sb bs n h
    obtain ⟨sb', hget, h'⟩ := sgetn_spec chosen hnodup hexists n h
    refine ⟨sb', ?_, h'⟩
    simp only [source, hget]

end Streambuf

end Zim
