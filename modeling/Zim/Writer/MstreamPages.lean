import Zim.Writer.Mstream
import Zim.Lib.LinkedSegment

/-! The streams of the paged store: every call keeps the list of pages that holds a stream's
content. -/
namespace Zim.Mstream
open Cxx LinkedSegment

theorem toNat_min (a b : UInt16) : (min a b).toNat = min a.toNat b.toNat := by
  have h : min a b = if a ≤ b then a else b := rfl
  rw [h, apply_ite UInt16.toNat, Nat.min_def]
  simp only [UInt16.le_iff_toNat_le]

theorem toNat_sub_min (a b : UInt16) :
    (a - min a b).toNat = a.toNat - (min a b).toNat := by
  apply UInt16.toNat_sub_of_le
  rw [UInt16.le_iff_toNat_le, toNat_min]
  exact Nat.min_le_left _ _

/-- A part of a buffer has been moved to its front. -/
theorem moved_front {data : Bytes} {m n : ℕ} (h : n + m ≤ data.length) :
    ((data.drop n).take m ++ data.drop m).length = data.length ∧
      ((data.drop n).take m ++ data.drop m).take m = (data.drop n).take m := by
  have hmove : ((data.drop n).take m).length = m := by
    rw [List.length_take, List.length_drop]
    omega
  constructor
  · rw [List.length_append, hmove, List.length_drop]
    omega
  · exact List.take_left' hmove

namespace Page

@[simp] theorem memory_length (o : ByteOrder) (p : Page) : (p.memory o).length = pageSize := by
  simp [memory, p.data_size, pageSize, dataSize]

theorem ofMemory_memory (o : ByteOrder) (p : Page) :
    ofMemory o (p.memory o) (p.memory_length o) = p := by
  obtain ⟨nextPage, ppos, data, hsize⟩ := p
  have hnext : nextPage.toNat % 256 ^ 4 = nextPage.toNat :=
    Nat.mod_eq_of_lt nextPage.toNat_lt
  have hppos : ppos.toNat % 256 ^ 2 = ppos.toNat := Nat.mod_eq_of_lt ppos.toNat_lt
  have htake : (memory o ⟨nextPage, ppos, data, hsize⟩).take 4 = o.memory 4 nextPage.toNat := by
    rw [memory, List.append_assoc, List.take_left' (o.memory_length 4 _)]
  have hmid : ((memory o ⟨nextPage, ppos, data, hsize⟩).drop 4).take 2 =
      o.memory 2 ppos.toNat := by
    rw [memory, List.append_assoc, List.drop_left' (o.memory_length 4 _),
      List.take_left' (o.memory_length 2 _)]
  have hdrop : (memory o ⟨nextPage, ppos, data, hsize⟩).drop 6 = data := by
    rw [memory, List.drop_left' (by simp)]
  simp only [ofMemory, htake, hmid, hdrop, ByteOrder.value_memory, hnext, hppos,
    UInt32.ofNat_toNat, UInt16.ofNat_toNat]

/-- The four bytes in front of a page are the number of the next one. -/
theorem memory_link (o : ByteOrder) (p q : Page) (num : UInt32) :
    ({ q with nextPage := num }.memory o).take 4 ++ (p.memory o).drop 4 =
      { p with nextPage := num }.memory o := by
  simp only [memory, List.append_assoc]
  rw [List.take_left' (o.memory_length 4 _), List.drop_left' (o.memory_length 4 _)]

/-- A page written without the free part of its data. -/
theorem memory_fill (o : ByteOrder) {p q : Page} {n : ℕ} (h : q.data.drop n = p.data.drop n) :
    (q.memory o).take (6 + n) ++ (p.memory o).drop (6 + n) = q.memory o := by
  have hq : (q.memory o).take (6 + n) = o.memory 4 q.nextPage.toNat ++
      o.memory 2 q.ppos.toNat ++ q.data.take n := by
    rw [memory, List.take_append, List.take_of_length_le (by simp)]
    simp
  have hp : (p.memory o).drop (6 + n) = p.data.drop n := by
    rw [memory, List.drop_append, List.drop_eq_nil_of_le (by simp)]
    simp
  rw [hq, hp, ← h, List.append_assoc, List.take_append_drop, memory]

theorem free_toNat {p : Page} (h : p.ppos.toNat ≤ dataSize) :
    p.free.toNat = dataSize - p.ppos.toNat := by
  have hd : (UInt16.ofNat dataSize).toNat = dataSize := rfl
  rw [free, UInt16.toNat_sub_of_le, hd]
  rw [UInt16.le_iff_toNat_le, hd]
  exact h

/-- The bytes of a stream that a page holds. -/
def content (p : Page) : Bytes := p.data.take p.ppos.toNat

theorem copy_spec (p : Page) (off : ℕ) (bs : Bytes) (h : off + bs.length ≤ dataSize) :
    ∃ q, p.copy off bs = .ok q ∧ q.nextPage = p.nextPage ∧ q.ppos = p.ppos ∧
      q.data.take (off + bs.length) = p.data.take off ++ bs ∧
      q.data.drop (off + bs.length) = p.data.drop (off + bs.length) := by
  have hlen : (p.data.take off).length = off := List.length_take_of_le (by rw [p.data_size]; omega)
  have hroom : bs.length ≤ (p.data.drop off).length := by
    rw [List.length_drop, p.data_size]
    omega
  have hover := overwrite_append (p.data.take off) (p.data.drop off) [] bs hroom
  rw [List.take_append_drop, hlen, List.append_nil, List.append_nil, ← List.append_assoc] at hover
  have hfront : (p.data.take off ++ bs).length = off + bs.length := by
    rw [List.length_append, hlen]
  refine ⟨_, dif_pos h, rfl, rfl, ?_, ?_⟩
  · simp only [hover]
    rw [← hfront, List.take_left]
  · simp only [hover]
    rw [← hfront, List.drop_left, hfront, List.drop_drop]

end Page

/-- The file is the given pages, one behind the other. -/
structure Pagefile.Pages (o : ByteOrder) (f : Pagefile) (pages : List Page) : Prop where
  content : f.backfile.content = (pages.map (Page.memory o)).flatten
  good : f.backfile.fail = false
  next : f.nextPage = UInt32.ofNat pages.length
  few : pages.length < 2 ^ 32

namespace Pagefile
variable {o : ByteOrder} {f : Pagefile} {pages : List Page}

/-- The file with its position at the start. -/
def rewind (f : Pagefile) : Pagefile := { f with backfile := f.backfile.seek 0 }

theorem pages_blocks (o : ByteOrder) (pages : List Page) :
    ∀ b ∈ pages.map (Page.memory o), b.length = pageSize := by
  intro b hb
  obtain ⟨p, -, rfl⟩ := List.mem_map.mp hb
  exact p.memory_length o

theorem ofNat_toNat_of_lt {i : ℕ} (h : i < 2 ^ 32) : (UInt32.ofNat i).toNat = i := by
  simp only [UInt32.toNat_ofNat']
  omega

theorem Pages.empty : Pages o empty [] := ⟨rfl, rfl, rfl, by decide⟩

theorem Pages.getPage (h : Pages o f pages) {i : ℕ} {p : Page} (hi : pages[i]? = some p) :
    ∃ f', f.getPage o (UInt32.ofNat i) = .ok (p, f') ∧ Pages o f' pages ∧
      f'.rewind = f.rewind := by
  obtain ⟨⟨content, pos, fail⟩, nextPage⟩ := f
  obtain ⟨hcontent, hgood, hnext, hfew⟩ := h
  simp only at hcontent hgood hnext
  subst hcontent hgood hnext
  have hlt : i < pages.length := (List.getElem?_eq_some_iff.mp hi).1
  have hslice : ((pages.map (Page.memory o)).flatten.drop (i * pageSize)).take pageSize =
      p.memory o := blocks_slice (pages_blocks o pages) (by rw [List.getElem?_map, hi]; rfl)
  refine ⟨⟨⟨_, i * pageSize + pageSize, false⟩, UInt32.ofNat pages.length⟩, ?_,
    ⟨rfl, rfl, rfl, hfew⟩, rfl⟩
  simp only [Pagefile.getPage, Fstream.seek, Fstream.read, Bool.false_eq_true, if_false,
    ofNat_toNat_of_lt (hlt.trans hfew), hslice, Page.memory_length, dite_true,
    Page.ofMemory_memory, lt_irrefl, decide_false]

/-- Every file position of a page is within the range of a stream. -/
theorem page_in_range {i n : ℕ} (hi : i < 2 ^ 32) (hn : n ≤ pageSize) :
    ¬ maxOffset < i * pageSize + n := by
  simp only [maxOffset, pageSize] at *
  omega

theorem Pages.putPage (h : Pages o f pages) {i : ℕ} {p q r : Page} (size : ℕ)
    (hi : pages[i]? = some p)
    (hr : (q.memory o).take size ++ (p.memory o).drop ((q.memory o).take size).length =
      r.memory o) :
    ∃ f', f.putPage o (UInt32.ofNat i) q size = .ok f' ∧ Pages o f' (pages.set i r) := by
  obtain ⟨⟨content, pos, fail⟩, nextPage⟩ := f
  obtain ⟨hcontent, hgood, hnext, hfew⟩ := h
  simp only at hcontent hgood hnext
  subst hcontent hgood hnext
  have hlt : i < pages.length := (List.getElem?_eq_some_iff.mp hi).1
  have hsize : ((q.memory o).take size).length ≤ pageSize := by
    rw [List.length_take, Page.memory_length]
    omega
  have hover := overwrite_block (pages_blocks o pages) (i := i) (b := p.memory o)
    (by rw [List.getElem?_map, hi]; rfl) hsize
  rw [hr, ← List.map_set] at hover
  refine ⟨⟨⟨_, i * pageSize + ((q.memory o).take size).length, false⟩, _⟩, ?_,
    ⟨rfl, rfl, by rw [List.length_set], by rw [List.length_set]; exact hfew⟩⟩
  simp only [Pagefile.putPage, Fstream.seek, Fstream.write, Bool.false_eq_true, if_false,
    ofNat_toNat_of_lt (hlt.trans hfew), if_neg (page_in_range (hlt.trans hfew) hsize), hover]

theorem Pages.putNewPage (h : Pages o f pages) (hfew : pages.length < 2 ^ 32 - 1) (q : Page) :
    ∃ f', f.getNewPage.2.putPage o f.getNewPage.1 q pageSize = .ok f' ∧
      Pages o f' (pages ++ [q]) := by
  obtain ⟨⟨content, pos, fail⟩, nextPage⟩ := f
  obtain ⟨hcontent, hgood, hnext, -⟩ := h
  simp only at hcontent hgood hnext
  subst hcontent hgood hnext
  have hlen := blocks_length (pages_blocks o pages)
  rw [List.length_map] at hlen
  have htake : (q.memory o).take pageSize = q.memory o :=
    List.take_of_length_le (by rw [Page.memory_length])
  have hover : overwrite (pages.map (Page.memory o)).flatten (pages.length * pageSize)
      (q.memory o) = ((pages ++ [q]).map (Page.memory o)).flatten := by
    rw [← hlen, overwrite_end, List.map_append, List.flatten_append]
    simp
  refine ⟨⟨⟨_, pages.length * pageSize + pageSize, false⟩, UInt32.ofNat pages.length + 1⟩, ?_,
    ⟨rfl, rfl, ?_, ?_⟩⟩
  · simp only [Pagefile.putPage, getNewPage, Fstream.seek, Fstream.write, Bool.false_eq_true,
      if_false, ofNat_toNat_of_lt (show pages.length < 2 ^ 32 by omega), htake,
      Page.memory_length, if_neg (page_in_range (show pages.length < 2 ^ 32 by omega)
        (le_refl pageSize)), hover]
  · rw [List.length_append, UInt32.ofNat_add]
    rfl
  · rw [List.length_append, List.length_singleton]
    omega

end Pagefile

/-- The stream's pages are the given cells, linked in this order; with the buffer they hold
`content`. -/
structure Stream.Holds (pages : List Page) (s : Stream) (cells : List (ℕ × Page))
    (content : Bytes) : Prop where
  stored : Stored pages cells
  chain : Segment UInt32.ofNat Page.nextPage s.firstPage cells noPage
  nodup : (cells.map Prod.fst).Nodup
  current : s.currentPage = (cells.getLast?.map fun p => UInt32.ofNat p.1).getD noPage
  fits : ∀ p ∈ cells, p.2.ppos.toNat ≤ dataSize
  size : ∃ k ≤ 6, s.buffersize.toNat = 18 * 2 ^ k
  data : s.data.length = s.buffersize.toNat
  ppos : s.ppos.toNat ≤ s.data.length
  content : content = (cells.flatMap fun p => p.2.content) ++ s.data.take s.ppos.toNat

/-- The pages outside a stream's own list are kept, and its list grows by fresh pages. -/
structure Grows (pages : List Page) (cells : List (ℕ × Page)) (pages' : List Page)
    (cells' : List (ℕ × Page)) : Prop where
  kept : ∀ i, i ∉ cells.map Prod.fst → i < pages.length → pages'[i]? = pages[i]?
  fresh : ∀ i ∈ cells'.map Prod.fst, i ∈ cells.map Prod.fst ∨ pages.length ≤ i
  length : pages.length ≤ pages'.length

theorem Grows.refl (pages : List Page) (cells : List (ℕ × Page)) : Grows pages cells pages cells :=
  ⟨fun _ _ _ => rfl, fun _ hi => .inl hi, le_refl _⟩

namespace Stream
variable {o : ByteOrder} {pages : List Page} {s : Stream} {cells : List (ℕ × Page)} {c : Bytes}
  {f : Pagefile}

theorem ofNat_ne_noPage {i : ℕ} (h : i < 2 ^ 32 - 1) : UInt32.ofNat i ≠ noPage := by
  intro he
  have := congrArg UInt32.toNat he
  rw [Pagefile.ofNat_toNat_of_lt (by omega)] at this
  have hn : noPage.toNat = 2 ^ 32 - 1 := rfl
  omega

theorem Holds.buffersize_le (h : Holds pages s cells c) : s.buffersize.toNat ≤ 1152 := by
  obtain ⟨k, hk, he⟩ := h.size
  have hpow : 2 ^ k ≤ 2 ^ 6 := Nat.pow_le_pow_right (by decide) hk
  omega

/-- A stream without pages. -/
theorem Holds.firstPage_eq (h : Holds pages s [] c) : s.firstPage = noPage := h.chain

theorem Holds.firstPage_ne (h : Holds pages s cells c) (hc : cells ≠ [])
    (hlen : pages.length ≤ 2 ^ 32 - 1) : s.firstPage ≠ noPage := by
  obtain ⟨p, cells, rfl⟩ := List.exists_cons_of_ne_nil hc
  have hlt := h.stored.lt (List.mem_cons_self ..)
  rw [h.chain.1]
  exact ofNat_ne_noPage (by omega)

theorem Holds.currentPage_nil (h : Holds pages s [] c) : s.currentPage = noPage := h.current

theorem Holds.currentPage_concat {i : ℕ} {p : Page} (h : Holds pages s (cells ++ [(i, p)]) c) :
    s.currentPage = UInt32.ofNat i := by
  simpa using h.current

/-- While the buffer is smaller than the maximum, a full buffer is doubled. -/
theorem overflow_double (uninit : Page) (h : Holds pages s cells c) (hpos : s.ppos ≠ 0)
    (hmax : s.buffersize < 1152) : ∃ s', s.overflow o 1152 uninit f = .ok (s', f) ∧
      Holds pages s' cells c ∧ s'.ppos = s.ppos ∧ s'.data.length = 2 * s.data.length := by
  obtain ⟨k, hk, he⟩ := h.size
  have hlt : s.buffersize.toNat < 1152 := UInt32.lt_iff_toNat_lt.mp hmax
  have hk' : k + 1 ≤ 6 := by
    by_contra hn
    obtain rfl : k = 6 := by omega
    omega
  have hdouble : (s.buffersize * 2).toNat = 2 * s.buffersize.toNat := by
    rw [UInt32.toNat_mul, show (2 : UInt32).toNat = 2 from rfl]
    omega
  refine ⟨{ s with buffersize := s.buffersize * 2,
                   data := s.data ++ List.replicate s.data.length 0 }, ?_, ?_, rfl, ?_⟩
  · simp only [overflow, if_neg hpos, if_pos hmax]
  · refine ⟨h.stored, h.chain, h.nodup, h.current, h.fits, ⟨k + 1, hk', ?_⟩, ?_, ?_, ?_⟩
    · rw [hdouble, he, pow_succ]
      omega
    · simp only [List.length_append, List.length_replicate, hdouble, h.data]
      omega
    · simp only [List.length_append]
      exact h.ppos.trans (Nat.le_add_right _ _)
    · rw [List.take_append_of_le_length h.ppos]
      exact h.content
  · simp only [List.length_append, List.length_replicate]
    omega

/-- A current page with room takes the front of the buffer. -/
theorem fillPage_spec {i : ℕ} {p : Page} (hf : f.Pages o pages)
    (h : Holds pages s (cells ++ [(i, p)]) c) (hpos : s.ppos ≠ 0) (hfree : p.free ≠ 0) :
    ∃ s' f' p', s.fillPage o f p = .ok (s', f') ∧ f'.Pages o (pages.set i p') ∧
      Holds (pages.set i p') s' (cells ++ [(i, p')]) c ∧ s'.ppos.toNat < s'.data.length := by
  obtain ⟨hstored, hlast⟩ := stored_append.mp h.stored
  have hi : pages[i]? = some p := hlast (i, p) (List.mem_singleton_self _)
  have hfits : p.ppos.toNat ≤ dataSize := h.fits (i, p) (by simp)
  have hfreeNat := Page.free_toNat hfits
  have hd : dataSize = 8186 := rfl
  have hfree' : p.free.toNat ≠ 0 := fun he => hfree (UInt16.toNat_inj.mp he)
  have hpos' : s.ppos.toNat ≠ 0 := fun he => hpos (UInt16.toNat_inj.mp he)
  have hppos := h.ppos
  obtain ⟨count, hmin⟩ : ∃ count, count = min s.ppos p.free := ⟨_, rfl⟩
  have hcount : count.toNat = min s.ppos.toNat p.free.toNat := by rw [hmin, toNat_min]
  have htake : (s.data.take count.toNat).length = count.toNat :=
    List.length_take_of_le (by omega)
  have hsum : (p.ppos + count).toNat = p.ppos.toNat + count.toNat := by
    rw [UInt16.toNat_add]
    omega
  have hrest : (s.ppos - count).toNat = s.ppos.toNat - count.toNat := by
    rw [hmin, toNat_sub_min]
  obtain ⟨q, hcopy, hnext, hqppos, hfront, hback⟩ :=
    p.copy_spec p.ppos.toNat (s.data.take count.toNat) (by omega)
  rw [htake, ← hsum] at hfront hback
  have hfit' : ({ q with ppos := p.ppos + count } : Page).ppos.toNat ≤ dataSize := by
    rw [hsum]
    omega
  have hsize : pageSize - ({ q with ppos := p.ppos + count } : Page).free.toNat =
      6 + (p.ppos + count).toNat := by
    rw [Page.free_toNat hfit']
    simp only [pageSize] at *
    omega
  have hput : (Page.memory o { q with ppos := p.ppos + count }).take
        (6 + (p.ppos + count).toNat) ++ (p.memory o).drop
        ((Page.memory o { q with ppos := p.ppos + count }).take
          (6 + (p.ppos + count).toNat)).length =
      Page.memory o { q with ppos := p.ppos + count } := by
    rw [List.length_take_of_le (by rw [Page.memory_length]; simp only [pageSize]; omega)]
    exact Page.memory_fill o hback
  obtain ⟨f', hputPage, hpages'⟩ := hf.putPage _ hi hput
  have hroom : count.toNat + (s.ppos - count).toNat ≤ s.data.length := by omega
  obtain ⟨hdata, hdata'⟩ := moved_front hroom
  refine ⟨⟨s.firstPage, s.currentPage, s.ppos - count, s.buffersize,
    (s.data.drop count.toNat).take (s.ppos - count).toNat ++
      s.data.drop (s.ppos - count).toNat⟩, f', { q with ppos := p.ppos + count }, ?_, hpages',
    ?_, ?_⟩
  · rw [fillPage, ← hmin, hcopy, h.currentPage_concat]
    simp only [bind, Except.bind, hqppos, hsize, hputPage]
  · refine ⟨?_, ?_, ?_, ?_, ?_, h.size, ?_, ?_, ?_⟩
    · have hnotin : i ∉ cells.map Prod.fst := by
        have := h.nodup
        rw [List.map_append, List.nodup_append] at this
        exact fun hi => this.2.2 i hi i (by simp) rfl
      refine stored_append.mpr ⟨hstored.set hnotin _, ?_⟩
      intro r hr
      rw [List.mem_singleton.mp hr, List.getElem?_set_self (hlast.lt (List.mem_singleton_self _))]
    · have hchain := segment_concat.mp h.chain
      exact segment_concat.mpr ⟨hchain.1, hnext.trans hchain.2⟩
    · simpa using h.nodup
    · simpa using h.current
    · intro r hr
      rcases List.mem_append.mp hr with hr | hr
      · exact h.fits r (List.mem_append_left _ hr)
      · rw [List.mem_singleton.mp hr]
        exact hfit'
    · exact hdata.trans h.data
    · rw [hdata]
      exact hrest.trans_le (by omega)
    · have hbuffer : s.data.take s.ppos.toNat = s.data.take count.toNat ++
          (s.data.drop count.toNat).take (s.ppos - count).toNat := by
        rw [← List.take_add, hrest, Nat.add_sub_cancel' (by omega)]
      have hpage : ({ q with ppos := p.ppos + count } : Page).content =
          p.content ++ s.data.take count.toNat := hfront
      simp only [hdata', List.flatMap_append, List.flatMap_singleton, hpage]
      rw [h.content, hbuffer]
      simp only [List.flatMap_append, List.flatMap_singleton, List.append_assoc]
  · rw [hdata]
    exact hrest.trans_lt (by omega)


/-- The buffer fits into a page. -/
theorem Holds.buffer_page (h : Holds pages s cells c) (page : Page) :
    ∃ q, Page.copy { page with nextPage := noPage } 0 (s.data.take s.ppos.toNat) = .ok q ∧
      q.nextPage = noPage ∧ ({ q with ppos := s.ppos } : Page).content = s.data.take s.ppos.toNat ∧
      s.ppos.toNat ≤ dataSize := by
  have hle := h.buffersize_le
  have hppos := h.ppos
  have hdata := h.data
  have hd : dataSize = 8186 := rfl
  have htake : (s.data.take s.ppos.toNat).length = s.ppos.toNat := List.length_take_of_le hppos
  obtain ⟨q, hcopy, hnext, -, hfront, -⟩ :=
    Page.copy_spec { page with nextPage := noPage } 0 (s.data.take s.ppos.toNat) (by omega)
  rw [Nat.zero_add, htake, List.take_zero, List.nil_append] at hfront
  exact ⟨q, hcopy, hnext, hfront, by omega⟩

theorem newPage_first (hf : f.Pages o pages) (hfew : pages.length < 2 ^ 32 - 1)
    (h : Holds pages s [] c) (page : Page) :
    ∃ s' f' q, s.newPage o f page = .ok (s', f') ∧ f'.Pages o (pages ++ [q]) ∧
      Holds (pages ++ [q]) s' [(pages.length, q)] c ∧ s'.ppos = 0 ∧ s'.data = s.data := by
  obtain ⟨q, hcopy, hnext, hcontent, hfit⟩ := h.buffer_page page
  obtain ⟨f', hput, hpages'⟩ := hf.putNewPage hfew { q with ppos := s.ppos }
  have hnum : f.getNewPage.1 = UInt32.ofNat pages.length := hf.next
  rw [hnum] at hput
  refine ⟨⟨UInt32.ofNat pages.length, UInt32.ofNat pages.length, 0, s.buffersize, s.data⟩, f',
    { q with ppos := s.ppos }, ?_, hpages', ?_, rfl, rfl⟩
  · simp only [newPage, hcopy, bind, Except.bind, hput, if_pos h.firstPage_eq, hnum]
  · refine ⟨?_, ⟨rfl, hnext⟩, by simp, by simp, ?_, h.size, h.data, Nat.zero_le _, ?_⟩
    · intro r hr
      rw [List.mem_singleton.mp hr]
      simp
    · intro r hr
      rw [List.mem_singleton.mp hr]
      exact hfit
    · rw [List.flatMap_singleton, hcontent, h.content]
      simp

/-- A full current page is linked with a new one. -/
theorem newPage_next {i : ℕ} {p : Page} (hf : f.Pages o pages)
    (hfew : pages.length < 2 ^ 32 - 1) (h : Holds pages s (cells ++ [(i, p)]) c) (page : Page) :
    ∃ s' f' q, s.newPage o f page = .ok (s', f') ∧
      f'.Pages o ((pages ++ [q]).set i { p with nextPage := UInt32.ofNat pages.length }) ∧
      Holds ((pages ++ [q]).set i { p with nextPage := UInt32.ofNat pages.length }) s'
        (cells ++ [(i, { p with nextPage := UInt32.ofNat pages.length }), (pages.length, q)]) c ∧
      s'.ppos = 0 ∧ s'.data = s.data := by
  obtain ⟨hstored, hlast⟩ := stored_append.mp h.stored
  have hi : pages[i]? = some p := hlast (i, p) (List.mem_singleton_self _)
  have hlt : i < pages.length := hlast.lt (List.mem_singleton_self _)
  obtain ⟨q, hcopy, hnext, hcontent, hfit⟩ := h.buffer_page page
  obtain ⟨f₁, hput, hpages₁⟩ := hf.putNewPage hfew { q with ppos := s.ppos }
  have hnum : f.getNewPage.1 = UInt32.ofNat pages.length := hf.next
  rw [hnum] at hput
  have hfirst := h.firstPage_ne (by simp) hfew.le
  have hi₁ : (pages ++ [({ q with ppos := s.ppos } : Page)])[i]? = some p := by
    rw [List.getElem?_append_left hlt, hi]
  obtain ⟨f', hlink, hpages'⟩ := hpages₁.putPage
    (q := { q with ppos := s.ppos, nextPage := UInt32.ofNat pages.length })
    (r := { p with nextPage := UInt32.ofNat pages.length }) 4 hi₁ (by
      rw [List.length_take_of_le (by rw [Page.memory_length]; decide)]
      exact Page.memory_link o p { q with ppos := s.ppos } (UInt32.ofNat pages.length))
  refine ⟨⟨s.firstPage, UInt32.ofNat pages.length, 0, s.buffersize, s.data⟩, f',
    { q with ppos := s.ppos }, ?_, hpages', ?_, rfl, rfl⟩
  · simp only [newPage, hcopy, bind, Except.bind, hput, if_neg hfirst, hnum,
      h.currentPage_concat, hlink]
  · have hnodup := h.nodup
    rw [List.map_append, List.nodup_append] at hnodup
    have hi' : i ∉ cells.map Prod.fst := fun hm => hnodup.2.2 i hm i (by simp) rfl
    have hn' : pages.length ∉ (cells ++ [(i, p)]).map Prod.fst := by
      intro hm
      obtain ⟨r, hr, he⟩ := List.mem_map.mp hm
      exact absurd (h.stored.lt hr) (by omega)
    refine ⟨?_, ?_, ?_, by simp, ?_, h.size, h.data, Nat.zero_le _, ?_⟩
    · refine stored_append.mpr ⟨(hstored.append _).set hi' _, ?_⟩
      intro r hr
      rcases List.mem_cons.mp hr with rfl | hr
      · rw [List.getElem?_set_self (by simp; omega)]
      · rw [List.mem_singleton.mp hr, List.getElem?_set_ne (by omega)]
        simp
    · have hchain := segment_concat.mp h.chain
      exact segment_append.mpr ⟨_, hchain.1, rfl, rfl, hnext⟩
    · have hsplit : cells ++ [(i, ({ p with nextPage := UInt32.ofNat pages.length } : Page)),
          (pages.length, ({ q with ppos := s.ppos } : Page))] =
          (cells ++ [(i, { p with nextPage := UInt32.ofNat pages.length })]) ++
            [(pages.length, { q with ppos := s.ppos })] := by simp
      rw [hsplit, List.map_append, List.map_append]
      rw [List.map_append] at hn'
      have hd := h.nodup
      rw [List.map_append] at hd
      exact List.nodup_append.mpr ⟨hd, by simp, fun a ha b hb hab => by
        obtain rfl : b = pages.length := by simpa using hb
        exact hn' (hab ▸ ha)⟩
    · intro r hr
      rcases List.mem_append.mp hr with hr | hr
      · exact h.fits r (List.mem_append_left _ hr)
      rcases List.mem_cons.mp hr with rfl | hr
      · exact h.fits (i, p) (by simp)
      · rw [List.mem_singleton.mp hr]
        exact hfit
    · have hsame : ({ p with nextPage := UInt32.ofNat pages.length } : Page).content =
          p.content := rfl
      rw [h.content]
      simp only [List.flatMap_append, List.flatMap_cons, List.flatMap_nil, hcontent, hsame]
      simp

end Stream

theorem Grows.trans {pages pages₁ pages₂ : List Page} {cells cells₁ cells₂ : List (ℕ × Page)}
    (h₁ : Grows pages cells pages₁ cells₁) (h₂ : Grows pages₁ cells₁ pages₂ cells₂) :
    Grows pages cells pages₂ cells₂ := by
  refine ⟨?_, ?_, h₁.length.trans h₂.length⟩
  · intro i hi hlt
    have hi₁ : i ∉ cells₁.map Prod.fst := by
      intro hm
      rcases h₁.fresh i hm with hm | hle
      · exact hi hm
      · omega
    rw [h₂.kept i hi₁ (hlt.trans_le h₁.length), h₁.kept i hi hlt]
  · intro i hi
    rcases h₂.fresh i hi with hm | hle
    · exact h₁.fresh i hm
    · exact .inr (h₁.length.trans hle)

theorem grows_concat {pages : List Page} {cells : List (ℕ × Page)} {i : ℕ} {p p' q : Page} :
    Grows pages (cells ++ [(i, p)]) ((pages ++ [q]).set i p')
      (cells ++ [(i, p'), (pages.length, q)]) := by
  refine ⟨?_, ?_, by simp⟩
  · intro j hj hlt
    have hne : i ≠ j := by
      rintro rfl
      exact hj (by simp)
    rw [List.getElem?_set_ne hne, List.getElem?_append_left hlt]
  · intro j hj
    simp only [List.map_append, List.map_cons, List.map_nil, List.mem_append, List.mem_cons,
      List.not_mem_nil, or_false] at hj ⊢
    rcases hj with hj | hj | hj
    · exact .inl (.inl hj)
    · exact .inl (.inr hj)
    · exact .inr hj.ge

namespace Stream

/-- A full buffer is made room in, and the content stays as it is. -/
theorem overflow_spec (uninit : Page) (hf : f.Pages o pages) (hfew : pages.length < 2 ^ 32 - 1)
    (h : Holds pages s cells c) (hfull : s.ppos.toNat = s.data.length) :
    ∃ s' f' pages' cells', s.overflow o 1152 uninit f = .ok (s', f') ∧ f'.Pages o pages' ∧
      Holds pages' s' cells' c ∧ s'.ppos.toNat < s'.data.length ∧
      Grows pages cells pages' cells' := by
  have hpositive : 0 < s.data.length := by
    obtain ⟨k, -, he⟩ := h.size
    rw [h.data, he]
    exact Nat.mul_pos (by decide) (Nat.two_pow_pos k)
  have hpos : s.ppos ≠ 0 := by
    intro he
    rw [he] at hfull
    exact absurd hfull.symm hpositive.ne'
  by_cases hmax : s.buffersize < 1152
  · obtain ⟨s', he, hs', hppos, hlen⟩ := overflow_double (o := o) (f := f) uninit h hpos hmax
    exact ⟨s', f, pages, cells, he, hf, hs', by rw [hppos]; omega, Grows.refl _ _⟩
  rcases List.eq_nil_or_concat' cells with rfl | ⟨cells, ⟨i, p⟩, rfl⟩
  · obtain ⟨s', f', q, he, hpages', hs', hppos, hdata⟩ := newPage_first hf hfew h uninit
    refine ⟨s', f', _, _, ?_, hpages', hs', by rw [hppos, hdata]; exact hpositive, ?_⟩
    · rw [overflow, if_neg hpos, if_neg hmax, if_neg (not_not.mpr h.currentPage_nil), he]
    · exact ⟨fun i _ hlt => List.getElem?_append_left hlt, fun i hi => .inr (by simp_all),
        by simp⟩
  · obtain ⟨-, hlast⟩ := stored_append.mp h.stored
    have hi : pages[i]? = some p := hlast (i, p) (List.mem_singleton_self _)
    have hlt : i < pages.length := hlast.lt (List.mem_singleton_self (i, p))
    obtain ⟨f₁, hget, hf₁, -⟩ := hf.getPage hi
    have hcur : UInt32.ofNat i ≠ noPage := ofNat_ne_noPage (by omega)
    have hunfold : s.overflow o 1152 uninit f =
        if p.free ≠ 0 then s.fillPage o f₁ p else s.newPage o f₁ p := by
      simp only [overflow, if_neg hpos, if_neg hmax, h.currentPage_concat, if_pos hcur, hget,
        bind, Except.bind]
    by_cases hfree : p.free ≠ 0
    · obtain ⟨s', f', p', he, hpages', hs', hroom⟩ := fillPage_spec hf₁ h hpos hfree
      refine ⟨s', f', _, _, by rw [hunfold, if_pos hfree, he], hpages', hs', hroom, ?_⟩
      refine ⟨?_, fun j hj => .inl (by simpa using hj), by simp⟩
      intro j hj _
      have hne : i ≠ j := by
        rintro rfl
        exact hj (by simp)
      exact List.getElem?_set_ne hne
    · obtain ⟨s', f', q, he, hpages', hs', hppos, hdata⟩ := newPage_next hf₁ hfew h p
      exact ⟨s', f', _, _, by rw [hunfold, if_neg hfree, he], hpages', hs',
        by rw [hppos, hdata]; exact hpositive, grows_concat⟩

theorem store_spec (h : Holds pages s cells c) (hroom : s.ppos.toNat < s.data.length)
    (ch : UInt8) : ∃ s', s.store ch = .ok s' ∧ Holds pages s' cells (c ++ [ch]) := by
  have hle := h.buffersize_le
  have hdata := h.data
  have hnext : (s.ppos + 1).toNat = s.ppos.toNat + 1 := by
    rw [UInt16.toNat_add, show (1 : UInt16).toNat = 1 from rfl]
    omega
  have htake : (s.data.set s.ppos.toNat ch).take (s.ppos.toNat + 1) =
      s.data.take s.ppos.toNat ++ [ch] := by
    rw [List.take_add_one, List.take_set_of_le (le_refl _), List.getElem?_set_self hroom]
    rfl
  refine ⟨_, if_pos hroom, h.stored, h.chain, h.nodup, h.current, h.fits, h.size, ?_, ?_, ?_⟩
  · simpa using hdata
  · simp only [List.length_set, hnext]
    omega
  · simp only [hnext, htake]
    rw [h.content, List.append_assoc]

theorem put_spec (uninit : Page) (hf : f.Pages o pages) (hfew : pages.length < 2 ^ 32 - 1)
    (h : Holds pages s cells c) (ch : UInt8) :
    ∃ s' f' pages' cells', s.put o 1152 uninit f ch = .ok (s', f') ∧ f'.Pages o pages' ∧
      Holds pages' s' cells' (c ++ [ch]) ∧ Grows pages cells pages' cells' := by
  have hppos : s.ppos.toUInt32.toNat = s.ppos.toNat := rfl
  by_cases hfull : s.buffersize ≤ s.ppos.toUInt32
  · have hle := UInt32.le_iff_toNat_le.mp hfull
    have hdata := h.data
    have hpos := h.ppos
    obtain ⟨s₁, f₁, pages₁, cells₁, ho, hf₁, h₁, hroom, hgrows⟩ :=
      overflow_spec uninit hf hfew h (by omega)
    obtain ⟨s', hs, h'⟩ := store_spec h₁ hroom ch
    refine ⟨s', f₁, pages₁, cells₁, ?_, hf₁, h', hgrows⟩
    simp only [put, if_pos hfull, ho, hs, bind, Except.bind]
  · have hlt := UInt32.lt_iff_toNat_lt.mp (UInt32.not_le.mp hfull)
    obtain ⟨s', hs, h'⟩ := store_spec h (by rw [h.data]; omega) ch
    refine ⟨s', f, pages, cells, ?_, hf, h', Grows.refl _ _⟩
    simp only [put, if_neg hfull, hs, bind, Except.bind]

end Stream

/-- The number of pages in the file. -/
def Pagefile.pages (f : Pagefile) : ℕ := f.backfile.content.length / pageSize

theorem Pagefile.Pages.pages_eq {o : ByteOrder} {f : Pagefile} {pages : List Page}
    (h : f.Pages o pages) : f.pages = pages.length := by
  rw [Pagefile.pages, h.content, blocks_length (Pagefile.pages_blocks o pages), List.length_map,
    Nat.mul_div_cancel _ (by decide)]

namespace Stream

theorem write_spec (uninit : Page) (bs : Bytes) (hf : f.Pages o pages) (h : Holds pages s cells c)
    (hfew : ∀ k s' f', s.write o 1152 uninit f (bs.take k) = .ok (s', f') →
      f'.pages < 2 ^ 32 - 1) :
    ∃ s' f' pages' cells', s.write o 1152 uninit f bs = .ok (s', f') ∧ f'.Pages o pages' ∧
      Holds pages' s' cells' (c ++ bs) ∧ Grows pages cells pages' cells' := by
  induction bs generalizing s f pages cells c with
  | nil => exact ⟨s, f, pages, cells, rfl, hf, by rwa [List.append_nil], Grows.refl _ _⟩
  | cons ch bs ih =>
    have hnow := hfew 0 s f rfl
    rw [hf.pages_eq] at hnow
    obtain ⟨s₁, f₁, pages₁, cells₁, hput, hf₁, h₁, hgrows₁⟩ :=
      put_spec uninit hf hnow h ch
    have hstep : ∀ bs, s.write o 1152 uninit f (ch :: bs) = s₁.write o 1152 uninit f₁ bs := by
      intro bs
      simp only [write, hput, bind, Except.bind]
    obtain ⟨s', f', pages', cells', hw, hf', h', hgrows⟩ := ih hf₁ h₁ (fun k s' f' he =>
      hfew (k + 1) s' f' (by rw [List.take_succ_cons, hstep, he]))
    refine ⟨s', f', pages', cells', by rw [hstep, hw], hf', ?_, hgrows₁.trans hgrows⟩
    rwa [List.append_assoc] at h'

theorem readLoop_spec (hf : f.Pages o pages) (hfew : pages.length ≤ 2 ^ 32 - 1) {p : UInt32}
    (hstored : Stored pages cells) (hchain : Segment UInt32.ofNat Page.nextPage p cells noPage)
    (turns : ℕ) (hturns : cells.length < turns) (str : Bytes) :
    ∃ f', readLoop o turns p str f = .ok (str ++ cells.flatMap fun q => q.2.content, f') ∧
      f'.Pages o pages ∧ f'.rewind = f.rewind := by
  induction cells generalizing f p turns str with
  | nil =>
    obtain ⟨turns, rfl⟩ : ∃ t, turns = t + 1 := ⟨turns - 1, by omega⟩
    exact ⟨f, by simp [readLoop, show p = noPage from hchain], hf, rfl⟩
  | cons q cells ih =>
    obtain ⟨i, page⟩ := q
    obtain ⟨turns, rfl⟩ : ∃ t, turns = t + 1 := ⟨turns - 1, by omega⟩
    obtain ⟨rfl, hchain⟩ := hchain
    have hlt := hstored.lt (List.mem_cons_self ..)
    obtain ⟨f₁, hget, hf₁, hrew₁⟩ := hf.getPage (hstored (i, page) (List.mem_cons_self ..))
    obtain ⟨f', hloop, hf', hrew⟩ := ih hf₁ (fun q hq => hstored q (List.mem_cons_of_mem _ hq))
      hchain turns (by simpa using hturns) (str ++ page.content)
    refine ⟨f', ?_, hf', hrew.trans hrew₁⟩
    simp only [readLoop, if_neg (ofNat_ne_noPage (show i < 2 ^ 32 - 1 by omega)), hget, bind,
      Except.bind]
    rw [Page.content] at hloop
    rw [hloop, List.flatMap_cons, List.append_assoc, Page.content]

theorem read_spec (hf : f.Pages o pages) (hfew : pages.length ≤ 2 ^ 32 - 1)
    (h : Holds pages s cells c) :
    ∃ f', s.read o f = .ok (c, f') ∧ f'.Pages o pages ∧ f'.rewind = f.rewind := by
  have hturns : cells.length < f.nextPage.toNat + 1 := by
    rw [hf.next, Pagefile.ofNat_toNat_of_lt hf.few]
    exact Nat.lt_succ_of_le (h.stored.length_le h.nodup)
  obtain ⟨f', hloop, hf', hrew⟩ := readLoop_spec hf hfew h.stored h.chain _ hturns []
  refine ⟨f', ?_, hf', hrew⟩
  simp only [read, hloop, bind, Except.bind]
  rw [h.content, List.nil_append]

end Stream
end Zim.Mstream
