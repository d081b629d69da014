import Zim.Writer.MstreamCounters

/-! What becomes of a stream of the paged store whose buffer outgrows a page: its first copy to a
page is too long, or it is never copied and its counter starts again. -/
namespace Zim.Mstream
open Cxx

/-- Up to this maximum a buffer reaches its last size, and above it the counter ends first. -/
theorem capacity_eq_last {maxBuffersize : UInt32} (h : maxBuffersize ≤ 36864) :
    capacity maxBuffersize = 18 * 2 ^ doublings maxBuffersize := by
  have heleven : doublings maxBuffersize ≤ 11 := by
    rw [← not_lt, lt_doublings_iff, not_lt]
    exact UInt32.le_iff_toNat_le.mp h
  have hpow : 2 ^ doublings maxBuffersize ≤ 2 ^ 11 := Nat.pow_le_pow_right (by decide) heleven
  rw [capacity]
  omega

theorem capacity_eq_counter {maxBuffersize : UInt32} (h : 36864 < maxBuffersize) :
    capacity maxBuffersize = 65535 := by
  have htwelve : 12 ≤ doublings maxBuffersize := by
    apply lt_doublings_iff.mpr
    exact UInt32.lt_iff_toNat_lt.mp h
  have hpow : 2 ^ 12 ≤ 2 ^ doublings maxBuffersize := Nat.pow_le_pow_right (by decide) htwelve
  rw [capacity]
  omega

namespace Stream
variable {o : ByteOrder} {maxBuffersize : UInt32} {uninit : Page} {s : Stream} {f : Pagefile}
  {n : ℕ}

theorem overflow_copies (uninit : Page) (h : s.CopiesToPage o maxBuffersize f) :
    ∃ page f', s.overflow o maxBuffersize uninit f = s.newPage o f' page := by
  obtain ⟨hpos, hmax, hfree⟩ := h
  rw [overflow, if_neg hpos, if_neg hmax]
  by_cases hcur : s.currentPage ≠ noPage
  · obtain ⟨page, f', hget, hzero⟩ := hfree hcur
    refine ⟨page, f', ?_⟩
    simp only [if_pos hcur, hget, bind, Except.bind, hzero, ne_eq, not_true, if_false]
  · exact ⟨uninit, f, if_neg hcur⟩

theorem newPage_overrun (page : Page) (hle : s.ppos.toNat ≤ s.data.length)
    (h : dataSize < s.ppos.toNat) : s.newPage o f page = .error .overrun := by
  have hlength : (s.data.take s.ppos.toNat).length = s.ppos.toNat := List.length_take_of_le hle
  have hcopy : Page.copy { page with nextPage := noPage } 0 (s.data.take s.ppos.toNat) =
      .error .overrun := dif_neg (by omega)
  simp only [newPage, hcopy, bind, Except.bind]

namespace Buffered

theorem put_overrun (h : s.Buffered maxBuffersize (18 * 2 ^ doublings maxBuffersize))
    (hmax : 4608 < maxBuffersize) (ch : UInt8) :
    s.put o maxBuffersize uninit f ch = .error .overrun := by
  obtain ⟨hfull, hcopies⟩ := h.copiesToPage o f
  obtain ⟨page, f', hnew⟩ := overflow_copies uninit hcopies
  have hover : s.newPage o f' page = .error .overrun := by
    apply newPage_overrun page
    · rw [h.data]
      exact h.ppos
    · rw [h.count]
      exact dataSize_lt_last hmax
  rw [put_eq, Stream.makeRoom, if_pos hfull, hnew, hover]
  rfl

/-- A stream that gets more than the last size of its buffer ends in the copy. -/
theorem write_overrun (hmax : 4608 < maxBuffersize) (hmax' : maxBuffersize ≤ 36864) (bs : Bytes)
    (h : s.Buffered maxBuffersize n) (hn : n ≤ capacity maxBuffersize)
    (hlong : capacity maxBuffersize < n + bs.length) :
    s.write o maxBuffersize uninit f bs = .error .overrun := by
  induction bs generalizing s n with
  | nil => exact absurd hlong (not_lt.mpr hn)
  | cons ch bs ih =>
    rw [Stream.write]
    rcases hn.lt_or_eq with hlt | rfl
    · obtain ⟨s₁, hput, h₁, -⟩ := h.put o uninit f hlt ch
      rw [hput]
      apply ih h₁ hlt
      rw [List.length_cons] at hlong
      omega
    · rw [capacity_eq_last hmax'] at h
      rw [h.put_overrun hmax]
      rfl

/-- At the greatest value of its counter a stream starts again at the front of its buffer. -/
theorem put_wrap (o : ByteOrder) (uninit : Page) (f : Pagefile)
    (h : s.Buffered maxBuffersize 65535) (ch : UInt8) :
    ∃ s', s.put o maxBuffersize uninit f ch = .ok (s', f) ∧ s'.Buffered maxBuffersize 0 := by
  have hcount := h.count
  have hlt := UInt32.lt_iff_toNat_lt.mp (UInt32.not_le.mp h.not_full)
  have hwrap : (s.ppos + 1).toNat = 0 := by
    rw [UInt16.toNat_add, show (1 : UInt16).toNat = 1 from rfl, hcount]
  have hstore : s.store ch =
      .ok { s with data := s.data.set s.ppos.toNat ch, ppos := s.ppos + 1 } := by
    rw [store, if_pos (by rw [h.data]; exact hlt)]
  refine ⟨{ s with data := s.data.set s.ppos.toNat ch, ppos := s.ppos + 1 }, ?_,
    ⟨⟨h.size, hwrap.le.trans (Nat.zero_le _)⟩, h.firstPage, h.currentPage, ?_, hwrap⟩⟩
  · rw [put_eq]
    exact Fallible.bind_eq_ok.mpr ⟨(s, f), if_neg h.not_full,
      Fallible.bind_eq_ok.mpr ⟨_, hstore, rfl⟩⟩
  · simpa only [List.length_set] using h.data

end Buffered

/-- A stream without pages has in its buffer what came behind the last of 65536 bytes. -/
structure Lapped (maxBuffersize : UInt32) (s : Stream) (c : Bytes) : Prop
    extends Buffered maxBuffersize s (c.length % 65536) where
  content : s.data.take (c.length % 65536) = c.drop (c.length - c.length % 65536)

theorem Lapped.put (o : ByteOrder) (uninit : Page) (f : Pagefile) {c : Bytes}
    (hmax : 36864 < maxBuffersize) (h : s.Lapped maxBuffersize c) (ch : UInt8) :
    ∃ s', s.put o maxBuffersize uninit f ch = .ok (s', f) ∧
      s'.Lapped maxBuffersize (c ++ [ch]) := by
  have hlength : (c ++ [ch]).length = c.length + 1 := by simp
  by_cases hlap : c.length % 65536 = 65535
  · have hnext : (c ++ [ch]).length % 65536 = 0 := by omega
    obtain ⟨s', hput, h'⟩ := (hlap ▸ h.toBuffered).put_wrap o uninit f ch
    refine ⟨s', hput, hnext ▸ h', ?_⟩
    rw [hnext, List.take_zero, Nat.sub_zero, List.drop_length]
  · have hnext : (c ++ [ch]).length % 65536 = c.length % 65536 + 1 := by omega
    have hlt : c.length % 65536 < capacity maxBuffersize := by
      rw [capacity_eq_counter hmax]
      omega
    obtain ⟨s', hput, h', htake⟩ := h.toBuffered.put o uninit f hlt ch
    refine ⟨s', hput, hnext ▸ h', ?_⟩
    rw [hnext, htake, h.content, hlength, Nat.add_sub_add_right, List.drop_append_of_le_length]
    exact Nat.sub_le _ _

theorem Lapped.write (o : ByteOrder) (uninit : Page) (f : Pagefile) {c : Bytes}
    (hmax : 36864 < maxBuffersize) (bs : Bytes) (h : s.Lapped maxBuffersize c) :
    ∃ s', s.write o maxBuffersize uninit f bs = .ok (s', f) ∧
      s'.Lapped maxBuffersize (c ++ bs) := by
  induction bs generalizing s c with
  | nil => exact ⟨s, rfl, by rwa [List.append_nil]⟩
  | cons ch bs ih =>
    obtain ⟨s₁, hput, h₁⟩ := h.put o uninit f hmax ch
    obtain ⟨s', hwrite, h'⟩ := ih h₁
    refine ⟨s', ?_, by rwa [List.append_assoc] at h'⟩
    rw [Stream.write, hput]
    exact hwrite

/-- With such a maximum every write succeeds, and all but what came behind the last of 65536 bytes
is lost. -/
theorem read_lapped (o : ByteOrder) (uninit : Page) (f : Pagefile) (hmax : 36864 < maxBuffersize)
    (bs : Bytes) :
    ∃ s, (new minBuffersize).write o maxBuffersize uninit f bs = .ok (s, f) ∧
      s.read o f = .ok (bs.drop (bs.length - bs.length % 65536), f) := by
  obtain ⟨s, hwrite, h⟩ := Lapped.write o uninit f hmax bs (c := []) ⟨new_buffered, rfl⟩
  refine ⟨s, hwrite, ?_⟩
  rw [List.nil_append] at h
  have hcontent : s.data.take s.ppos.toNat = bs.drop (bs.length - bs.length % 65536) := by
    rw [h.count, h.content]
  simp only [read, readLoop, if_pos h.firstPage, bind, Except.bind, hcontent, List.nil_append]

end Stream
end Zim.Mstream
