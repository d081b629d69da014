import Zim.Format.Endian

/-! Directory entries (dirent.h, dirent.cpp). -/
namespace Zim
open Cxx

structure Dirent where
  redirect : Bool
  mimeType : UInt16
  version : UInt32
  clusterNumber : UInt32
  blobNumber : UInt32
  redirectIndex : UInt32
  /-- A `char`. -/
  ns : UInt8
  title : Bytes
  url : Bytes
  parameter : Bytes
  deriving DecidableEq

namespace Dirent

/-- `Dirent()`. -/
def new : Dirent := ⟨false, 0, 0, 0, 0, 0, 0, [], [], []⟩

def isRedirect (d : Dirent) : Bool := d.redirect
def getMimeType (d : Dirent) : UInt16 := d.mimeType
def getVersion (d : Dirent) : UInt32 := d.version
def getClusterNumber (d : Dirent) : UInt32 := if d.isRedirect then 0 else d.clusterNumber
def getBlobNumber (d : Dirent) : UInt32 := if d.isRedirect then 0 else d.blobNumber
def getRedirectIndex (d : Dirent) : UInt32 := if d.isRedirect then d.redirectIndex else 0
def getNamespace (d : Dirent) : UInt8 := d.ns
def getTitle (d : Dirent) : Bytes := if d.title = [] then d.url else d.title
def getUrl (d : Dirent) : Bytes := d.url
def getParameter (d : Dirent) : Bytes := d.parameter

def setVersion (d : Dirent) (v : UInt32) : Dirent := { d with version := v }

def setCluster (d : Dirent) (clusterNumber blobNumber : UInt32) : Dirent :=
  { d with clusterNumber, blobNumber }

def setTitle (d : Dirent) (title : Bytes) : Dirent := { d with title }

def setUrl (d : Dirent) (ns : UInt8) (url : Bytes) : Dirent := { d with ns, url }

def setParameter (d : Dirent) (parameter : Bytes) : Dirent := { d with parameter }

def setRedirect (d : Dirent) (idx : UInt32) : Dirent :=
  { d with redirect := true, redirectIndex := idx, mimeType := 0xffff,
           clusterNumber := 0, blobNumber := 0 }

def setArticle (d : Dirent) (mimeType : UInt16) (clusterNumber blobNumber : UInt32) : Dirent :=
  { d with redirect := false, mimeType, clusterNumber, blobNumber }

/-- The sum is taken in the 64-bit type of `std::string::size`, but kept in an `unsigned`. -/
def getDirentSize (d : Dirent) : UInt32 :=
  let ret : UInt32 := UInt32.ofNat
    ((if d.isRedirect then 12 else 16) + d.url.length + d.parameter.length + 2)
  if d.title ≠ d.url then ret + UInt32.ofNat d.title.length else ret

section Stream
variable (host : ByteOrder)

/-- The array `header` of `operator<<`, as far as it is written. -/
def header (d : Dirent) : Bytes :=
  let front := toLittleEndian host 2 d.getMimeType.toNat ++
    [UInt8.ofNat d.getParameter.length, d.getNamespace] ++
    toLittleEndian host 4 d.getVersion.toNat
  if d.isRedirect then front ++ toLittleEndian host 4 d.getRedirectIndex.toNat
  else front ++ toLittleEndian host 4 d.getClusterNumber.toNat ++
    toLittleEndian host 4 d.getBlobNumber.toNat

/-- `operator<<`. -/
def write (d : Dirent) : Bytes :=
  let t := d.getTitle
  d.header host ++ d.getUrl ++ [0] ++ (if t ≠ d.getUrl then t else []) ++ [0] ++ d.getParameter

/-- `while (in.get(ch) && ch != '\0') str += ch`. -/
def getStringLoop : ℕ → IStream → Bytes × IStream
  | 0, s => ([], s)
  | turns + 1, s =>
    match s.get with
    | (none, s) => ([], s)
    | (some ch, s) =>
      if ch = 0 then ([], s)
      else
        let (str, s) := getStringLoop turns s
        (ch :: str, s)

def getString (s : IStream) : Bytes × IStream := getStringLoop (s.rest.length + 1) s

/-- The part of `operator>>` behind the numbers of the header. -/
def readStrings (dirent : Dirent) (ns : UInt8) (extraLen : UInt8) (s : IStream) :
    Dirent × IStream :=
  let (url, s) := getString s
  let (title, s) := getString s
  let (parameter, s) := s.getUpTo extraLen.toNat
  (((dirent.setUrl ns url).setTitle title).setParameter parameter, s)

/-- `operator>>`. -/
def read (dirent : Dirent) (s : IStream) : Dirent × IStream :=
  let (d, s) := s.read 12
  if s.fail then (dirent, s)
  else
    let mimeType := UInt16.ofNat (fromLittleEndian host (field d 0 2))
    let ns := (field d 3 1).headD 0
    let dirent := dirent.setVersion (UInt32.ofNat (fromLittleEndian host (field d 4 4)))
    let number := UInt32.ofNat (fromLittleEndian host (field d 8 4))
    if mimeType = 0xffff then
      readStrings (dirent.setRedirect number) ns ((field d 2 1).headD 0) s
    else
      let (d', s) := s.read 4
      if s.fail then (dirent, s)
      else
        let blobNumber := UInt32.ofNat (fromLittleEndian host d')
        readStrings (dirent.setArticle mimeType number blobNumber) ns ((field d 2 1).headD 0) s

end Stream

/-- The bytes an entry takes in an archive. -/
def size (d : Dirent) : ℕ :=
  (if d.isRedirect then 12 else 16) + d.url.length + d.parameter.length + 2 +
    if d.title ≠ d.url then d.title.length else 0

theorem getDirentSize_eq (d : Dirent) : d.getDirentSize = UInt32.ofNat d.size := by
  unfold getDirentSize size
  by_cases ht : d.title = d.url
  · simp [ht]
  · simp [ht, ← UInt32.ofNat_add]

/-- The title as it is written, which is empty where it is the url. -/
def writtenTitle (d : Dirent) : Bytes := if d.getTitle ≠ d.getUrl then d.getTitle else []

theorem writtenTitle_length (d : Dirent) :
    d.writtenTitle.length = if d.title ≠ d.url then d.title.length else 0 := by
  unfold writtenTitle getTitle getUrl
  by_cases h : d.title = []
  · simp [h]
  · by_cases hu : d.title = d.url <;> simp [h, hu]

section Stream
variable (host : ByteOrder)

theorem header_length (d : Dirent) : (d.header host).length = if d.isRedirect then 12 else 16 := by
  unfold header
  split <;> simp

theorem write_eq (d : Dirent) : d.write host =
    d.header host ++ (d.url ++ 0 :: (d.writtenTitle ++ 0 :: d.parameter)) := by
  simp only [write, writtenTitle, getUrl, getParameter, List.append_assoc, List.cons_append,
    List.nil_append]

theorem write_length (d : Dirent) : (d.write host).length = d.size := by
  simp only [write_eq, List.length_append, List.length_cons, header_length, writtenTitle_length,
    size]
  omega

theorem getStringLoop_append {str : Bytes} (h : 0 ∉ str) (rest : Bytes) {turns : ℕ}
    (hturns : str.length < turns) :
    getStringLoop turns ⟨str ++ 0 :: rest, false⟩ = (str, ⟨rest, false⟩) := by
  induction str generalizing turns with
  | nil =>
    obtain ⟨turns, rfl⟩ := Nat.exists_eq_add_of_lt hturns
    simp [getStringLoop]
  | cons ch str ih =>
    obtain ⟨hch, hstr⟩ : ch ≠ 0 ∧ 0 ∉ str := by
      simp only [List.mem_cons, not_or] at h
      exact ⟨Ne.symm h.1, h.2⟩
    cases turns with
    | zero => exact absurd hturns (Nat.not_lt_zero _)
    | succ turns =>
      simp [getStringLoop, hch, ih hstr (Nat.succ_lt_succ_iff.mp hturns)]

theorem getString_append {str : Bytes} (h : 0 ∉ str) (rest : Bytes) :
    getString ⟨str ++ 0 :: rest, false⟩ = (str, ⟨rest, false⟩) :=
  getStringLoop_append h rest (by simp only [List.length_append, List.length_cons]; omega)

theorem readStrings_append (d : Dirent) (ns extraLen : UInt8) {url title parameter : Bytes}
    (hurl : 0 ∉ url) (htitle : 0 ∉ title) (hparameter : parameter.length = extraLen.toNat)
    (rest : Bytes) :
    readStrings d ns extraLen ⟨url ++ 0 :: (title ++ 0 :: (parameter ++ rest)), false⟩ =
      (((d.setUrl ns url).setTitle title).setParameter parameter, ⟨rest, false⟩) := by
  simp only [readStrings, getString_append hurl, getString_append htitle, ← hparameter,
    IStream.getUpTo_append]

/-- What makes an entry one that its own bytes describe: the mark of a redirect is its mime
type, the strings end at their first zero, and the length of the parameter is one byte. -/
structure Writable (d : Dirent) : Prop where
  mark : d.redirect = true ↔ d.mimeType = 0xffff
  url : 0 ∉ d.url
  title : 0 ∉ d.title
  parameter : d.parameter.length < 256

theorem zero_not_mem_writtenTitle {d : Dirent} (hurl : 0 ∉ d.url) (htitle : 0 ∉ d.title) :
    0 ∉ d.writtenTitle := by
  unfold writtenTitle getTitle
  split_ifs
  · exact hurl
  · exact List.not_mem_nil
  · exact htitle
  · exact List.not_mem_nil

/-- The entry that reading gives back: a title equal to the url is not kept, nor are the
numbers that do not belong to the kind of the entry. -/
def stored (d : Dirent) : Dirent :=
  { d with
    title := d.writtenTitle
    clusterNumber := d.getClusterNumber
    blobNumber := d.getBlobNumber
    redirectIndex := d.getRedirectIndex }

theorem stored_getTitle (d : Dirent) : d.stored.getTitle = d.getTitle := by
  unfold stored Dirent.writtenTitle getTitle getUrl
  by_cases h : d.title = []
  · simp [h]
  · by_cases hu : d.title = d.url <;> simp [h, hu]

/-- The numbers of an entry as they are read, those of the other kind being the initial ones. -/
def numbers (d : Dirent) : Dirent :=
  { new with
    redirect := d.redirect
    mimeType := d.mimeType
    version := d.version
    clusterNumber := d.getClusterNumber
    blobNumber := d.getBlobNumber
    redirectIndex := d.getRedirectIndex }

/-- The numbers of an entry put over those of another one; an index that is not written is the
only thing the target keeps. -/
def overwrite (t d : Dirent) : Dirent :=
  { t with
    redirect := d.redirect
    mimeType := d.mimeType
    version := d.version
    clusterNumber := d.getClusterNumber
    blobNumber := d.getBlobNumber
    redirectIndex := if d.redirect then d.redirectIndex else t.redirectIndex }

/-- The header is read on any host, into any entry. -/
theorem read_header_into {d : Dirent} (hmark : d.redirect = true ↔ d.mimeType = 0xffff)
    (writer : ByteOrder) (t : Dirent) (bs : Bytes) :
    read host t ⟨d.header writer ++ bs, false⟩ =
      readStrings (t.overwrite d) d.ns (UInt8.ofNat d.parameter.length) ⟨bs, false⟩ := by
  by_cases hr : d.redirect = true
  · have hm := hmark.mp hr
    have hlen : (d.header writer).length = 12 := by simp [header_length, isRedirect, hr]
    rw [read, IStream.read_append hlen]
    simp [header, isRedirect, hr, hm, getMimeType, getVersion, getRedirectIndex, getParameter,
      getNamespace, field_skip, field_front, field_all]
    simp [overwrite, setVersion, setRedirect, getClusterNumber, getBlobNumber, isRedirect, hr, hm]
  · have hm : d.mimeType ≠ 0xffff := fun hm => hr (hmark.mpr hm)
    -- the number of the blob is read apart from the first 12 bytes
    have hfront : d.header writer = (LittleEndian.encode 2 d.mimeType.toNat ++
        [UInt8.ofNat d.parameter.length, d.ns] ++ LittleEndian.encode 4 d.version.toNat ++
        LittleEndian.encode 4 d.clusterNumber.toNat) ++
        LittleEndian.encode 4 d.blobNumber.toNat := by
      simp [header, isRedirect, hr, getMimeType, getVersion, getParameter, getNamespace,
        getClusterNumber, getBlobNumber]
    rw [hfront, List.append_assoc, read, IStream.read_append (by simp)]
    simp [hm, field_skip, field_front, field_all, IStream.read_append]
    simp [overwrite, setVersion, setArticle, getClusterNumber, getBlobNumber, isRedirect, hr]

theorem read_header {d : Dirent} (hmark : d.redirect = true ↔ d.mimeType = 0xffff) (bs : Bytes) :
    read host .new ⟨d.header host ++ bs, false⟩ =
      readStrings d.numbers d.ns (UInt8.ofNat d.parameter.length) ⟨bs, false⟩ :=
  read_header_into host hmark host .new bs

/-- Reading an entry into a new one gives back what was written. -/
theorem read_write {d : Dirent} (h : d.Writable) (rest : Bytes) :
    read host .new ⟨d.write host ++ rest, false⟩ = (d.stored, ⟨rest, false⟩) := by
  have hfields : d.write host ++ rest = d.header host ++
      (d.url ++ 0 :: (d.writtenTitle ++ 0 :: (d.parameter ++ rest))) := by
    simp only [write_eq, List.append_assoc, List.cons_append]
  have hparameter : d.parameter.length = (UInt8.ofNat d.parameter.length).toNat :=
    (UInt8.toNat_ofNat_of_lt' h.parameter).symm
  rw [hfields, read_header host h.mark,
    readStrings_append _ _ _ h.url (zero_not_mem_writtenTitle h.url h.title) hparameter]
  rfl

section ReadBack

/-- What reading the bytes of an entry gives, whatever is in its strings. -/
def readBack (d : Dirent) : Dirent := (read host .new ⟨d.write host, false⟩).1

/-- A string is read up to its first zero, and the rest stays in front of what follows. -/
theorem takeWhile_line (str rest : Bytes) :
    ∃ more, str ++ 0 :: rest = str.takeWhile (· ≠ 0) ++ 0 :: (more ++ rest) := by
  induction str with
  | nil => exact ⟨[], rfl⟩
  | cons ch str ih =>
    by_cases hch : ch = 0
    · exact ⟨str ++ [0], by simp [hch]⟩
    · obtain ⟨more, hmore⟩ := ih
      exact ⟨more, by simp [hch, hmore]⟩

theorem zero_not_mem_takeWhile (str : Bytes) : 0 ∉ str.takeWhile (· ≠ 0) := by
  intro h
  have hall := List.all_eq_true.mp (List.all_takeWhile (p := fun ch => ch ≠ (0 : UInt8)) (l := str))
  simpa using hall 0 h

/-- An entry with the right mark is read from its own bytes, whatever follows. -/
theorem read_write_readBack {d : Dirent} (hmark : d.redirect = true ↔ d.mimeType = 0xffff) :
    (d.readBack host).ns = d.ns ∧ (d.readBack host).url = d.url.takeWhile (· ≠ 0) ∧
      ∀ rest, ∃ rest',
        read host .new ⟨d.write host ++ rest, false⟩ = (d.readBack host, ⟨rest', false⟩) := by
  obtain ⟨more, hurl⟩ := takeWhile_line d.url (d.writtenTitle ++ 0 :: d.parameter)
  obtain ⟨more', htitle⟩ := takeWhile_line (more ++ d.writtenTitle) d.parameter
  rw [List.append_assoc] at htitle
  generalize hn : UInt8.ofNat d.parameter.length = n
  have hle : n.toNat ≤ (more' ++ d.parameter).length := by
    rw [← hn, UInt8.toNat_ofNat', List.length_append]
    exact (Nat.mod_le _ _).trans (Nat.le_add_left _ _)
  have hread (rest : Bytes) : read host .new ⟨d.write host ++ rest, false⟩ =
      (((d.numbers.setUrl d.ns (d.url.takeWhile (· ≠ 0))).setTitle
        ((more ++ d.writtenTitle).takeWhile (· ≠ 0))).setParameter
        ((more' ++ d.parameter).take n.toNat),
        ⟨(more' ++ d.parameter).drop n.toNat ++ rest, false⟩) := by
    have hfields : d.write host ++ rest = d.header host ++ (d.url.takeWhile (· ≠ 0) ++ 0 ::
        ((more ++ d.writtenTitle).takeWhile (· ≠ 0) ++ 0 ::
          ((more' ++ d.parameter).take n.toNat ++
            ((more' ++ d.parameter).drop n.toNat ++ rest)))) := by
      rw [write_eq, hurl, htitle, ← List.append_assoc (List.take _ _), List.take_append_drop]
      simp only [List.append_assoc, List.cons_append]
    rw [hfields, read_header host hmark, hn]
    apply readStrings_append
    · exact zero_not_mem_takeWhile _
    · exact zero_not_mem_takeWhile _
    · rw [List.length_take, Nat.min_eq_left hle]
  have hback := hread []
  rw [List.append_nil] at hback
  have heq : d.readBack host = _ := congrArg Prod.fst hback
  rw [heq]
  exact ⟨rfl, rfl, fun rest => ⟨_, hread rest⟩⟩

/-- The title is read as it was written if neither string has a zero, however long the parameter. -/
theorem readBack_getTitle {d : Dirent} (hmark : d.redirect = true ↔ d.mimeType = 0xffff)
    (hurl : 0 ∉ d.url) (htitle : 0 ∉ d.title) : (d.readBack host).getTitle = d.getTitle := by
  generalize hn : UInt8.ofNat d.parameter.length = n
  have hle : n.toNat ≤ d.parameter.length := by
    rw [← hn, UInt8.toNat_ofNat']
    exact Nat.mod_le _ _
  have hfields : d.write host = d.header host ++ (d.url ++ 0 :: (d.writtenTitle ++ 0 ::
      (d.parameter.take n.toNat ++ d.parameter.drop n.toNat))) := by
    rw [write_eq, List.take_append_drop]
  have hlen : (d.parameter.take n.toNat).length = n.toNat := by
    rw [List.length_take, Nat.min_eq_left hle]
  have hstored : (d.readBack host).getTitle = d.stored.getTitle := by
    rw [readBack, hfields, read_header host hmark, hn, readStrings_append _ _ _ hurl
      (zero_not_mem_writtenTitle hurl htitle) hlen]
    rfl
  rw [hstored, stored_getTitle]

theorem readBack_of_writable {d : Dirent} (h : d.Writable) : d.readBack host = d.stored := by
  have hread := read_write host h []
  rw [List.append_nil] at hread
  exact congrArg Prod.fst hread

end ReadBack

end Stream
end Dirent
end Zim
