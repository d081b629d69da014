import Zim.Format.Endian

/-! The header of an archive (fileheader.h, fileheader.cpp). -/
namespace Zim
open Cxx

abbrev Uuid := { bs : Bytes // bs.length = 16 }

theorem zeroUuid_length : (List.replicate 16 0 : Bytes).length = 16 := rfl

/-- The uuid of a default header. -/
def zeroUuid : Uuid := ⟨List.replicate 16 0, zeroUuid_length⟩

structure Fileheader where
  uuid : Uuid
  articleCount : UInt32
  titleIdxPos : UInt64
  urlPtrPos : UInt64
  mimeListPos : UInt64
  clusterCount : UInt32
  clusterPtrPos : UInt64
  mainPage : UInt32
  layoutPage : UInt32
  checksumPos : UInt64
  deriving DecidableEq

namespace Fileheader

def zimMagic : UInt32 := 0x044d495a
def zimVersion : UInt32 := 5
def size : ℕ := 80

/-- `Fileheader()`. The position of the mime list, which it leaves open, is always set. -/
def default : Fileheader where
  uuid := zeroUuid
  articleCount := 0
  titleIdxPos := 0
  urlPtrPos := 0
  mimeListPos := 0
  clusterCount := 0
  clusterPtrPos := 0
  mainPage := 0xffffffff
  layoutPage := 0xffffffff
  checksumPos := 0xffffffffffffffff

def hasChecksum (fh : Fileheader) : Bool := 80 ≤ fh.mimeListPos

def getChecksumPos (fh : Fileheader) : UInt64 := if fh.hasChecksum then fh.checksumPos else 0

variable (host : ByteOrder)

/-- `operator<<`. -/
def write (fh : Fileheader) : Bytes :=
  toLittleEndian host 4 zimMagic.toNat ++
  toLittleEndian host 4 zimVersion.toNat ++
  fh.uuid.val ++
  toLittleEndian host 4 fh.articleCount.toNat ++
  toLittleEndian host 4 fh.clusterCount.toNat ++
  toLittleEndian host 8 fh.urlPtrPos.toNat ++
  toLittleEndian host 8 fh.titleIdxPos.toNat ++
  toLittleEndian host 8 fh.clusterPtrPos.toNat ++
  toLittleEndian host 8 fh.mimeListPos.toNat ++
  toLittleEndian host 4 fh.mainPage.toNat ++
  toLittleEndian host 4 fh.layoutPage.toNat ++
  toLittleEndian host 8 fh.checksumPos.toNat

/-- What `operator>>` takes from the bytes of a header, or nothing where it sets the failure
flag because of the magic number or the version. -/
def parse (header : Bytes) (h : header.length = size) : Option Fileheader :=
  if UInt32.ofNat (fromLittleEndian host (field header 0 4)) ≠ zimMagic then none
  else if (UInt16.ofNat (fromLittleEndian host (field header 4 2))).toUInt32 ≠ zimVersion then none
  else some
    { uuid := ⟨field header 8 16, by simp [field, h, size]⟩
      articleCount := UInt32.ofNat (fromLittleEndian host (field header 24 4))
      clusterCount := UInt32.ofNat (fromLittleEndian host (field header 28 4))
      urlPtrPos := UInt64.ofNat (fromLittleEndian host (field header 32 8))
      titleIdxPos := UInt64.ofNat (fromLittleEndian host (field header 40 8))
      clusterPtrPos := UInt64.ofNat (fromLittleEndian host (field header 48 8))
      mimeListPos := UInt64.ofNat (fromLittleEndian host (field header 56 8))
      mainPage := UInt32.ofNat (fromLittleEndian host (field header 64 4))
      layoutPage := UInt32.ofNat (fromLittleEndian host (field header 68 4))
      checksumPos := UInt64.ofNat (fromLittleEndian host (field header 72 8)) }

/-- `operator>>`, with nothing where it leaves the stream failed. -/
def read (s : IStream) : Option Fileheader × IStream :=
  let (header, s) := s.read size
  if s.fail then (none, s)
  else if h : header.length = size then
    match parse host header h with
    | some fh => (some fh, s)
    | none => (none, s.setFail)
  else (none, s.setFail)

@[simp] theorem write_length (fh : Fileheader) : (fh.write host).length = size := by
  have huuid : fh.uuid.val.length = 16 := fh.uuid.property
  simp [write, size, huuid]

/-- The header is the list of its fields, each behind the ones before it. -/
theorem parse_write (fh : Fileheader) :
    parse host (fh.write host) (write_length host fh) = some fh := by
  have huuid : fh.uuid.val.length = 16 := fh.uuid.property
  have hversion : field (LittleEndian.encode 4 zimVersion.toNat) 0 2 = [5, 0] := by decide
  have hdecode : (UInt16.ofNat (LittleEndian.decode [5, 0])).toUInt32 = zimVersion := by decide
  simp [parse, write, field_skip, field_front, field_all, huuid, hversion, hdecode]

theorem read_write (fh : Fileheader) (rest : Bytes) :
    read host ⟨fh.write host ++ rest, false⟩ = (some fh, ⟨rest, false⟩) := by
  simp [read, IStream.read_append (write_length host fh), parse_write]
end Fileheader
end Zim
