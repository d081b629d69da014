import Zim.Format.Dirent

/-! Writing an entry and reading it into any other, on hosts of either byte order. -/
namespace Zim.Dirent
open Cxx

/-- The entries that the members of the class can make. -/
inductive Built : Dirent → Prop
  | new : Built .new
  | setVersion {d : Dirent} (v : UInt32) : Built d → Built (d.setVersion v)
  | setCluster {d : Dirent} (clusterNumber blobNumber : UInt32) :
      Built d → Built (d.setCluster clusterNumber blobNumber)
  | setTitle {d : Dirent} (title : Bytes) : Built d → Built (d.setTitle title)
  | setUrl {d : Dirent} (ns : UInt8) (url : Bytes) : Built d → Built (d.setUrl ns url)
  | setParameter {d : Dirent} (parameter : Bytes) : Built d → Built (d.setParameter parameter)
  | setRedirect {d : Dirent} (idx : UInt32) : Built d → Built (d.setRedirect idx)
  | setArticle {d : Dirent} (mimeType : UInt16) (clusterNumber blobNumber : UInt32) :
      Built d → Built (d.setArticle mimeType clusterNumber blobNumber)

/-- Only `setRedirect` makes a redirect, and it sets the mime type that marks one. -/
theorem Built.mimeType {d : Dirent} (h : Built d) (hr : d.redirect = true) :
    d.mimeType = 0xffff := by
  induction h with
  | new => cases hr
  | setVersion _ _ ih => exact ih hr
  | setCluster _ _ _ ih => exact ih hr
  | setTitle _ _ ih => exact ih hr
  | setUrl _ _ _ ih => exact ih hr
  | setParameter _ _ ih => exact ih hr
  | setRedirect => rfl
  | setArticle => cases hr

/-- Two entries that show the same through the members of the class. -/
structure Same (d d' : Dirent) : Prop where
  isRedirect : d.isRedirect = d'.isRedirect
  getMimeType : d.getMimeType = d'.getMimeType
  getNamespace : d.getNamespace = d'.getNamespace
  getVersion : d.getVersion = d'.getVersion
  getUrl : d.getUrl = d'.getUrl
  getTitle : d.getTitle = d'.getTitle
  getParameter : d.getParameter = d'.getParameter
  getClusterNumber : d.getClusterNumber = d'.getClusterNumber
  getBlobNumber : d.getBlobNumber = d'.getBlobNumber
  getRedirectIndex : d.getRedirectIndex = d'.getRedirectIndex

/-- What `operator>>` makes of its target. -/
def readInto (t d : Dirent) : Dirent :=
  (((t.overwrite d).setUrl d.ns d.url).setTitle d.writtenTitle).setParameter d.parameter

/-- Nothing of the target shows any more. -/
theorem readInto_same (t d : Dirent) : Same (t.readInto d) d := by
  constructor
  case getTitle => exact stored_getTitle d
  case getClusterNumber | getBlobNumber | getRedirectIndex =>
    simp only [getClusterNumber, getBlobNumber, getRedirectIndex, isRedirect, readInto,
      setParameter, setTitle, setUrl, overwrite]
    split_ifs <;> simp_all
  all_goals rfl

theorem read_write_into {d : Dirent} (h : d.Writable) (writer reader : ByteOrder) (t : Dirent)
    (rest : Bytes) :
    read reader t ⟨d.write writer ++ rest, false⟩ = (t.readInto d, ⟨rest, false⟩) := by
  have hfields : d.write writer ++ rest = d.header writer ++
      (d.url ++ 0 :: (d.writtenTitle ++ 0 :: (d.parameter ++ rest))) := by
    simp only [write_eq, List.append_assoc, List.cons_append]
  have hparameter : d.parameter.length = (UInt8.ofNat d.parameter.length).toNat :=
    (UInt8.toNat_ofNat_of_lt' h.parameter).symm
  rw [hfields, read_header_into reader h.mark,
    readStrings_append _ _ _ h.url (zero_not_mem_writtenTitle h.url h.title) hparameter]
  rfl

theorem Built.writable {d : Dirent} (h : Built d) (hkind : d.isRedirect ∨ d.getMimeType ≠ 0xffff)
    (hurl : 0 ∉ d.url) (htitle : 0 ∉ d.title) (hparameter : d.parameter.length ≤ 255) :
    d.Writable := by
  refine ⟨⟨h.mimeType, fun hm => ?_⟩, hurl, htitle, Nat.lt_succ_of_le hparameter⟩
  exact hkind.resolve_right (not_not_intro hm)

theorem getDirentSize_toNat (d : Dirent) (host : ByteOrder) :
    d.getDirentSize.toNat = (d.write host).length % 2 ^ 32 := by
  rw [getDirentSize_eq, write_length, UInt32.toNat_ofNat']

/-- An entry is read back from its own bytes on any host, into any entry and in front of
anything, and all of its bytes are taken; their number is `getDirentSize` modulo 2^32. -/
theorem write_read_round_trip {d : Dirent} (h : Built d)
    (hkind : d.isRedirect ∨ d.getMimeType ≠ 0xffff) (hurl : 0 ∉ d.getUrl) (htitle : 0 ∉ d.title)
    (hparameter : d.getParameter.length ≤ 255) (writer reader : ByteOrder) (t : Dirent)
    (rest : Bytes) :
    d.getDirentSize.toNat = (d.write writer).length % 2 ^ 32 ∧
      (read reader t ⟨d.write writer ++ rest, false⟩).2 = ⟨rest, false⟩ ∧
      Same (read reader t ⟨d.write writer ++ rest, false⟩).1 d := by
  have hread := read_write_into (h.writable hkind hurl htitle hparameter) writer reader t rest
  rw [hread]
  exact ⟨getDirentSize_toNat d writer, rfl, readInto_same t d⟩

/-- An article with a title of its own and a zero in its parameter. -/
def sampleArticle : Dirent :=
  ((Dirent.new.setArticle 3 7 1).setUrl 65 [66]).setTitle [67] |>.setParameter [0, 1]

theorem sampleArticle_built : Built sampleArticle :=
  .setParameter _ (.setTitle _ (.setUrl _ _ (.setArticle _ _ _ .new)))

/-- Read by a host of the other byte order, into a redirect. -/
theorem write_read_sampleArticle :
    Same (read .little (Dirent.new.setRedirect 9)
      ⟨sampleArticle.write .big ++ [5], false⟩).1 sampleArticle :=
  (write_read_round_trip sampleArticle_built (by decide) (by decide) (by decide) (by decide)
    .big .little (Dirent.new.setRedirect 9) [5]).2.2

theorem size_setUrl (ns : UInt8) (url : Bytes) :
    (Dirent.new.setUrl ns url).size = url.length + 18 := by
  have htitle : (if (Dirent.new.setUrl ns url).title ≠ (Dirent.new.setUrl ns url).url
      then (Dirent.new.setUrl ns url).title.length else 0) = 0 := by
    split_ifs <;> rfl
  rw [size, htitle]
  simp only [isRedirect, new, setUrl, List.length_nil, Bool.false_eq_true, if_false]
  omega

/-- An article whose url alone has more bytes than an `unsigned` can count. -/
def longEntry : Dirent := Dirent.new.setUrl 65 (List.replicate (2 ^ 32) 97)

theorem longEntry_getDirentSize : Built longEntry ∧ longEntry.isRedirect = false ∧
    longEntry.getMimeType ≠ 0xffff ∧ 0 ∉ longEntry.url ∧ 0 ∉ longEntry.title ∧
    longEntry.parameter.length ≤ 255 ∧
    ∀ host, longEntry.getDirentSize.toNat ≠ (longEntry.write host).length := by
  have hsize : longEntry.size = 2 ^ 32 + 18 := by
    rw [longEntry, size_setUrl, List.length_replicate]
  refine ⟨.setUrl _ _ .new, rfl, ?_, ?_, List.not_mem_nil, Nat.zero_le _, ?_⟩
  · decide
  · intro h
    exact absurd (List.eq_of_mem_replicate h) (by decide)
  · intro host
    rw [getDirentSize_toNat _ host, write_length, hsize]
    decide

end Zim.Dirent
