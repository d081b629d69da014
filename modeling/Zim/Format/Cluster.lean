import Zim.Format.Endian

/-! Clusters of blobs and their compression (cluster.h, cluster.cpp, blob.h). -/
namespace Zim
open Cxx

inductive CompressionType where
  | zimcompDefault | zimcompNone | zimcompZip | zimcompBzip2 | zimcompLzma
  deriving DecidableEq

namespace CompressionType

/-- `static_cast<char>(compression)`. -/
def toChar : CompressionType → UInt8
  | zimcompDefault => 0
  | zimcompNone => 1
  | zimcompZip => 2
  | zimcompBzip2 => 3
  | zimcompLzma => 4

/-- The compression type of a flag, or nothing for an invalid compression flag. -/
def ofChar (c : UInt8) : Option CompressionType :=
  if c = 0 then some zimcompDefault
  else if c = 1 then some zimcompNone
  else if c = 2 then some zimcompZip
  else if c = 3 then some zimcompBzip2
  else if c = 4 then some zimcompLzma
  else none

@[simp] theorem ofChar_toChar (c : CompressionType) : ofChar c.toChar = some c := by
  cases c <;> rfl

def isCompressed (c : CompressionType) : Bool :=
  c = zimcompZip || c = zimcompBzip2 || c = zimcompLzma

/-- The text thrown where the library was built without a compressor. -/
def notEnabled : CompressionType → String
  | zimcompZip => "zlib not enabled in this library"
  | zimcompBzip2 => "bzip2 not enabled in this library"
  | _ => "lzma not enabled in this library"

end CompressionType

/-- A compressor and the stream that reverses it: `uncompress` gives the bytes that can be read
out of a compressed stream, and the text of the exception that a read behind them throws. -/
structure Codec where
  compress : Bytes → Bytes
  uncompress : Bytes → Bytes × String

namespace Codec

/-- The bytes are read back from their compressed stream, whatever follows it. -/
def Keeps (codec : Codec) (bs : Bytes) : Prop :=
  ∀ rest, bs <+: (codec.uncompress (codec.compress bs ++ rest)).1

def Lossless (codec : Codec) : Prop := ∀ bs, codec.Keeps bs

/-- The bytes behind a mark each, up to another mark. -/
def unmark : Bytes → Bytes
  | 1 :: b :: bs => b :: unmark bs
  | _ => []

/-- A codec that puts a mark before every byte, and another one at the end. -/
def marked : Codec where
  compress bs := bs.flatMap (fun b => [1, b]) ++ [0]
  uncompress bs := (unmark bs, "unexpected end of data")

theorem marked_lossless : marked.Lossless := by
  intro bs rest
  suffices h : (marked.uncompress (marked.compress bs ++ rest)).1 = bs from
    ⟨[], (List.append_nil bs).trans h.symm⟩
  simp only [marked]
  induction bs with
  | nil => rfl
  | cons b bs ih => simpa [unmark] using ih

end Codec

/-- What the library is built for: the byte order of the host and the compressors enabled. -/
structure Build where
  host : ByteOrder
  codec : CompressionType → Option Codec

namespace Build

def noCodecs : Build := ⟨.little, fun _ => none⟩

def marked : Build := ⟨.little, fun _ => some .marked⟩

/-- The compressor of a kind, where it is enabled, loses nothing. -/
def Lossless (build : Build) (compression : CompressionType) : Prop :=
  ∀ codec, build.codec compression = some codec → codec.Lossless

theorem noCodecs_lossless (compression : CompressionType) : noCodecs.Lossless compression :=
  fun _ h => nomatch h

theorem marked_lossless (compression : CompressionType) : marked.Lossless compression := by
  intro codec h
  cases h
  exact Codec.marked_lossless

end Build

/-- The bytes of a `Blob`, whose size is an `unsigned`. -/
abbrev Blob := { bs : Bytes // bs.length < 2 ^ 32 }

theorem noBytes_small : ([] : Bytes).length < 2 ^ 32 := by decide

inductive ZimError where
  /-- `ZimFileFormatError`. -/
  | format (text : String)
  /-- `std::runtime_error`. -/
  | runtime (text : String)
  /-- `"error seeking to " << off`. -/
  | seeking (off : UInt64)
  /-- `"unknown mime type code " << idx`. -/
  | mimeType (idx : UInt16)
  /-- `"internal error: redirect aid " << aid << " not found"`. -/
  | redirectAid (aid : Bytes)
  /-- `std::ios_base::failure` of a stream that throws where it fails. -/
  | failure
  deriving DecidableEq

structure ClusterImpl where
  compression : CompressionType
  offsets : List UInt32
  data : Bytes
  deriving DecidableEq

namespace ClusterImpl

/-- `ClusterImpl()`. -/
def new : ClusterImpl := ⟨.zimcompDefault, [0], []⟩

def setCompression (c : ClusterImpl) (compression : CompressionType) : ClusterImpl :=
  { c with compression }

def isCompressed (c : ClusterImpl) : Bool := c.compression.isCompressed

def getCount (c : ClusterImpl) : UInt32 := UInt32.ofNat c.offsets.length - 1

/-- `getSize()`, the size of the cluster without its compression flag. -/
def getSize (c : ClusterImpl) : UInt32 := UInt32.ofNat (c.offsets.length * 4 + c.data.length)

/-- The bytes of `getBlob(n)`, or nothing where they are not all in the vectors of the cluster. -/
def getBlob (c : ClusterImpl) (n : UInt32) : Option Bytes :=
  match c.offsets[n.toNat]?, c.offsets[(n + 1).toNat]? with
  | some first, some next =>
    if first.toNat + (next - first).toNat ≤ c.data.length then
      some ((c.data.drop first.toNat).take (next - first).toNat)
    else none
  | _, _ => none

def addBlob (c : ClusterImpl) (blob : Blob) : ClusterImpl :=
  { c with
    data := c.data ++ blob.val
    offsets := c.offsets ++ [UInt32.ofNat (c.data ++ blob.val).length] }

section Stream
variable (host : ByteOrder)

/-- The turns of `while (--n)`: what is pushed to `offsets`, and the stream. -/
def readOffsets (a : UInt32) : ℕ → IStream → List UInt32 × IStream
  | 0, s => ([], s)
  | turns + 1, s =>
    let (bs, s) := s.read 4
    if s.fail then ([], s)
    else
      let offset := UInt32.ofNat (fromLittleEndian host bs)
      let (offsets, s) := readOffsets a turns s
      ((offset - a) :: offsets, s)

/-- `data.resize(n)` and `in.read(&data[0], n)`. -/
def readData (n : ℕ) (s : IStream) : Bytes × IStream :=
  let (bs, s) := s.read n
  (bs.rightpad n 0, s)

def read (c : ClusterImpl) (s : IStream) : ClusterImpl × IStream :=
  let (bs, s) := s.read 4
  if s.fail then (c, s)
  else
    let a := UInt32.ofNat (fromLittleEndian host bs)
    -- without an offset `n` wraps around before the first test
    let (offsets, s) := readOffsets host a (a / 4 - 1).toNat s
    let c := { c with offsets := 0 :: offsets, data := [] }
    if s.fail then (c, s)
    else if h : offsets ≠ [] then
      let (data, s) := readData (offsets.getLast h - 0).toNat s
      ({ c with data }, s)
    else (c, s)

/-- The bytes that `write` sends to its stream. -/
def write (c : ClusterImpl) : Bytes :=
  let a := UInt32.ofNat (c.offsets.length * 4)
  c.offsets.flatMap (fun o => sizeTypeBytes host (o + a)) ++ c.data

end Stream

section Operators
variable (build : Build)

/-- `operator>>` for a stream without a failure: the cluster and whether the stream failed.
A compressed cluster is read from a stream of its own, whose failures are exceptions. -/
def get (s : IStream) : Except ZimError (ClusterImpl × Bool) :=
  let (c, s) := s.get
  match CompressionType.ofChar (c.getD 0) with
  | none => .ok (new, true)
  | some compression =>
    let cluster := new.setCompression compression
    if compression.isCompressed then
      match build.codec compression with
      | none => .error (.runtime compression.notEnabled)
      | some codec =>
        let (bs, text) := codec.uncompress s.rest
        let (cluster, is) := cluster.read build.host (.ofBytes bs)
        if is.fail then .error (.runtime text) else .ok (cluster, s.fail)
    else
      let (cluster, s) := cluster.read build.host s
      .ok (cluster, s.fail)

/-- The bytes that `operator<<` sends to its stream, the compression flag first. -/
def put (c : ClusterImpl) : Except ZimError Bytes :=
  if c.compression.isCompressed then
    match build.codec c.compression with
    | none => .error (.runtime c.compression.notEnabled)
    | some codec => .ok (c.compression.toChar :: codec.compress (c.write build.host))
  else .ok (c.compression.toChar :: c.write build.host)

/-- What the compressor of the cluster, if it has one, makes of it is read back. -/
def KeptBy (c : ClusterImpl) : Prop :=
  c.compression.isCompressed = true → ∀ codec, build.codec c.compression = some codec →
    codec.Keeps (c.write build.host)

variable {build}

theorem keptBy_of_lossless {c : ClusterImpl} (h : build.Lossless c.compression) :
    c.KeptBy build := fun _ codec hcodec => h codec hcodec _

theorem keptBy_of_not_compressed {c : ClusterImpl} (h : c.compression.isCompressed = false) :
    c.KeptBy build := fun hc => absurd (h.symm.trans hc) Bool.false_ne_true

end Operators
end ClusterImpl

/-- A pointer to a cluster, or none. -/
structure Cluster where
  impl : Option ClusterImpl
  deriving DecidableEq

namespace Cluster

def new : Cluster := ⟨none⟩

def getImpl (c : Cluster) : ClusterImpl := c.impl.getD .new

def setCompression (c : Cluster) (compression : CompressionType) : Cluster :=
  ⟨some (c.getImpl.setCompression compression)⟩

def isCompressed (c : Cluster) : Bool := (c.impl.map ClusterImpl.isCompressed).getD false

def count (c : Cluster) : UInt32 := (c.impl.map ClusterImpl.getCount).getD 0

def size (c : Cluster) : UInt32 := (c.impl.map ClusterImpl.getSize).getD 0

def clear (_ : Cluster) : Cluster := ⟨none⟩

def addBlob (c : Cluster) (blob : Blob) : Cluster := ⟨some (c.getImpl.addBlob blob)⟩

/-- `impl->getBlob(n)`. -/
def getBlob (c : Cluster) (n : UInt32) : Option Bytes := c.impl.bind fun impl => impl.getBlob n

end Cluster
end Zim
