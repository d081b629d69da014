import Zim.Lib.BlockFile

/-! The paged store of the index writer (mstream.h, mstream.cpp): many byte streams, each a
linked list of pages in one file and a buffer in memory. -/
namespace Zim.Mstream
open Cxx

inductive MstreamError where
  /-- `std::runtime_error("file operation failed")`. -/
  | fileOperation
  /-- A `memcpy` or a character behind the end of its array. -/
  | overrun
  /-- The linked list of pages does not end. -/
  | noReturn
  deriving DecidableEq, Repr

/-- `Pagefile::PageSize`. -/
def pageSize : ℕ := 8192

/-- `Pagefile::noPage`, which is `static_cast<PageNumber>(-1)`. -/
def noPage : UInt32 := 0xFFFFFFFF

/-- `Page::dataSize`, which is `PageSize - sizeof(uint16_t) - sizeof(PageNumber)`. -/
def dataSize : ℕ := pageSize - 2 - 4

/-- `Pagefile::Page`. -/
structure Page where
  nextPage : UInt32
  ppos : UInt16
  data : Bytes
  data_size : data.length = dataSize

namespace Page

def free (p : Page) : UInt16 := UInt16.ofNat dataSize - p.ppos

/-- The bytes of the object. -/
def memory (o : ByteOrder) (p : Page) : Bytes :=
  o.memory 4 p.nextPage.toNat ++ o.memory 2 p.ppos.toNat ++ p.data

/-- The object with given bytes. -/
def ofMemory (o : ByteOrder) (bs : Bytes) (h : bs.length = pageSize) : Page where
  nextPage := UInt32.ofNat (o.value (bs.take 4))
  ppos := UInt16.ofNat (o.value ((bs.drop 4).take 2))
  data := bs.drop 6
  data_size := by
    rw [List.length_drop, h]
    rfl

/-- `memcpy(page.data + off, bs, count)`. -/
def copy (p : Page) (off : ℕ) (bs : Bytes) : Except MstreamError Page :=
  if h : off + bs.length ≤ dataSize then
    .ok { p with
      data := overwrite p.data off bs
      data_size := by rw [overwrite_length (by rw [p.data_size]; exact h), p.data_size] }
  else .error .overrun

end Page

structure Pagefile where
  backfile : Fstream
  nextPage : UInt32

namespace Pagefile

/-- A page file whose file was truncated. -/
def empty : Pagefile := ⟨⟨[], 0, false⟩, 0⟩

def getNewPage (f : Pagefile) : UInt32 × Pagefile :=
  (f.nextPage, { f with nextPage := f.nextPage + 1 })

def getPage (o : ByteOrder) (f : Pagefile) (num : UInt32) :
    Except MstreamError (Page × Pagefile) :=
  let (bs, backfile) := (f.backfile.seek (num.toNat * pageSize)).read pageSize
  if h : bs.length = pageSize then
    if backfile.fail then .error .fileOperation
    else .ok (.ofMemory o bs h, { f with backfile := backfile })
  else .error .fileOperation

/-- `putPage(num, page, size)`. -/
def putPage (o : ByteOrder) (f : Pagefile) (num : UInt32) (page : Page) (size : ℕ) :
    Except MstreamError Pagefile :=
  let backfile := (f.backfile.seek (num.toNat * pageSize)).write ((page.memory o).take size)
  if backfile.fail then .error .fileOperation else .ok { f with backfile := backfile }

end Pagefile

/-- `MStream::Stream`. Memory that `new` returned and nobody wrote is taken as zeros. -/
structure Stream where
  firstPage : UInt32
  currentPage : UInt32
  ppos : UInt16
  buffersize : UInt32
  data : Bytes

namespace Stream

def new (minBuffersize : UInt32) : Stream where
  firstPage := noPage
  currentPage := noPage
  ppos := 0
  buffersize := minBuffersize
  data := List.replicate minBuffersize.toNat 0

section Overflow
-- `uninit` is what the local variable `page` holds before it is assigned
variable (o : ByteOrder) (maxBuffersize : UInt32) (uninit : Page)

/-- The last part of `overflow`: the data goes to a new page. Its test `off < ppos` always
holds, for `off` stays 0 and an empty buffer was left alone before. -/
def newPage (s : Stream) (f : Pagefile) (page : Page) :
    Except MstreamError (Stream × Pagefile) := do
  let (newPage, f) := f.getNewPage
  let page ← { page with nextPage := noPage }.copy 0 (s.data.take s.ppos.toNat)
  let page := { page with ppos := s.ppos }
  let f ← f.putPage o newPage page pageSize
  if s.firstPage = noPage then
    .ok ({ s with firstPage := newPage, currentPage := newPage, ppos := 0 }, f)
  else
    let f ← f.putPage o s.currentPage { page with nextPage := newPage } 4
    .ok ({ s with currentPage := newPage, ppos := 0 }, f)

/-- The part of `overflow` that fills the current page. -/
def fillPage (s : Stream) (f : Pagefile) (page : Page) :
    Except MstreamError (Stream × Pagefile) := do
  let count := min s.ppos page.free
  let page ← page.copy page.ppos.toNat (s.data.take count.toNat)
  let page := { page with ppos := page.ppos + count }
  let ppos := s.ppos - count
  -- memmove(data, data + count, ppos - count)
  let data := (s.data.drop count.toNat).take ppos.toNat ++ s.data.drop ppos.toNat
  let f ← f.putPage o s.currentPage page (pageSize - page.free.toNat)
  .ok ({ s with ppos := ppos, data := data }, f)

def overflow (s : Stream) (f : Pagefile) : Except MstreamError (Stream × Pagefile) :=
  if s.ppos = 0 then .ok (s, f)
  else if s.buffersize < maxBuffersize then
    .ok ({ s with
      buffersize := s.buffersize * 2
      data := s.data ++ List.replicate s.data.length 0 }, f)
  else if s.currentPage ≠ noPage then do
    let (page, f) ← f.getPage o s.currentPage
    if page.free ≠ 0 then s.fillPage o f page else s.newPage o f page
  else s.newPage o f uninit

/-- `data[ppos++] = ch`. -/
def store (s : Stream) (ch : UInt8) : Except MstreamError Stream :=
  if s.ppos.toNat < s.data.length then
    .ok { s with data := s.data.set s.ppos.toNat ch, ppos := s.ppos + 1 }
  else .error .overrun

def put (s : Stream) (f : Pagefile) (ch : UInt8) : Except MstreamError (Stream × Pagefile) := do
  let (s, f) ← if s.buffersize ≤ s.ppos.toUInt32 then s.overflow o maxBuffersize uninit f
    else .ok (s, f)
  let s ← s.store ch
  .ok (s, f)

/-- `Stream::write`: one `put` for each character. -/
def write (s : Stream) (f : Pagefile) : Bytes → Except MstreamError (Stream × Pagefile)
  | [] => .ok (s, f)
  | ch :: bs => do
    let (s, f) ← s.put o maxBuffersize uninit f ch
    s.write f bs

end Overflow

/-- `while (p != noPage)`, for as many turns as there can be pages. -/
def readLoop (o : ByteOrder) : ℕ → UInt32 → Bytes → Pagefile →
    Except MstreamError (Bytes × Pagefile)
  | 0, _, _, _ => .error .noReturn
  | turns + 1, p, s, f =>
    if p = noPage then .ok (s, f)
    else do
      let (page, f) ← f.getPage o p
      readLoop o turns page.nextPage (s ++ page.data.take page.ppos.toNat) f

def read (o : ByteOrder) (s : Stream) (f : Pagefile) :
    Except MstreamError (Bytes × Pagefile) := do
  let (str, f) ← readLoop o (f.nextPage.toNat + 1) s.firstPage [] f
  .ok (str ++ s.data.take s.ppos.toNat, f)

end Stream

/-- `MStream`, with the map of its streams. -/
structure MStream where
  streams : Bytes → Option Stream
  pagefile : Pagefile

namespace MStream

def empty : MStream := ⟨fun _ => none, .empty⟩

/-- The `size` bytes at `ptr` that a call of `write` gets; `size` is a 32-bit value. -/
abbrev Chunk := { bs : Bytes // bs.length < 2 ^ 32 }

variable (o : ByteOrder) (minBuffersize maxBuffersize : UInt32) (uninit : Page)

/-- `MStream::write`. -/
def write (m : MStream) (streamname : Bytes) (bs : Bytes) : Except MstreamError MStream := do
  let s := (m.streams streamname).getD (.new minBuffersize)
  let (s, f) ← s.write o maxBuffersize uninit m.pagefile bs
  .ok ⟨Function.update m.streams streamname (some s), f⟩

/-- `MStream::read`. -/
def read (m : MStream) (streamname : Bytes) : Except MstreamError (Bytes × MStream) :=
  match m.streams streamname with
  | none => .ok ([], m)
  | some s => do
    let (str, f) ← s.read o m.pagefile
    .ok (str, { m with pagefile := f })

end MStream
end Zim.Mstream
