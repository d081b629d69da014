import Zim.Lib.Fallible
import Zim.Writer.MstreamRuns
import Mathlib.Algebra.Order.Floor.Div
import Mathlib.Data.Nat.Log

/-! The counters of the paged store (mstream.h) under the maximal size of a buffer that the memory
factor of zimindexer sets. -/
namespace Zim.Mstream
open Cxx

/-- What `Indexer::Indexer` gives `setMaxBuffersize`. It gives `setMinBuffersize` the default. -/
def indexerMaxBuffersize (memoryFactor : UInt32) : UInt32 := memoryFactor * 18

example : indexerMaxBuffersize 64 = maxBuffersize := rfl

section Safety
variable (o : ByteOrder) (maxBuffersize : UInt32) (uninit : Page)

namespace Stream

/-- `if (ppos >= buffersize) overflow();` -/
def makeRoom (s : Stream) (f : Pagefile) : Except MstreamError (Stream × Pagefile) :=
  if s.buffersize ≤ s.ppos.toUInt32 then s.overflow o maxBuffersize uninit f else .ok (s, f)

/-- Here `overflow` copies the buffer to a new page. -/
def CopiesToPage (s : Stream) (f : Pagefile) : Prop :=
  s.ppos ≠ 0 ∧ ¬ s.buffersize < maxBuffersize ∧ (s.currentPage ≠ noPage →
    ∃ page f', f.getPage o s.currentPage = .ok (page, f') ∧ page.free = 0)

/-- The arithmetic of a `put` is safe: `ppos` is within the buffer before it and behind it, neither
`ppos -= count` nor `ppos++` wraps, and a buffer that is copied to a new page fits there. -/
structure PutSafe (s : Stream) (f : Pagefile) : Prop where
  inside : s.ppos.toNat ≤ s.buffersize.toNat
  page : s.buffersize ≤ s.ppos.toUInt32 → s.CopiesToPage o maxBuffersize f → s.ppos.toNat ≤ dataSize
  taken : ∀ s' f', s.makeRoom o maxBuffersize uninit f = .ok (s', f') → s'.ppos ≤ s.ppos
  counted : ∀ s' f', s.makeRoom o maxBuffersize uninit f = .ok (s', f') →
    s'.ppos.toNat + 1 < 2 ^ 16 ∧ s'.ppos.toNat + 1 ≤ s'.buffersize.toNat

/-- Every `put` of a `write` is safe. -/
def WriteSafe (s : Stream) (f : Pagefile) : Bytes → Prop
  | [] => True
  | ch :: bs => s.PutSafe o maxBuffersize uninit f ∧
      ∀ s' f', s.put o maxBuffersize uninit f ch = .ok (s', f') → s'.WriteSafe f' bs

end Stream

/-- The stream that a `write` to a name puts its characters to. -/
def MStream.stream (m : MStream) (name : Bytes) : Stream :=
  (m.streams name).getD (.new minBuffersize)

/-- Every `put` to any stream in a run is safe. -/
def MStream.RunSafe (m : MStream) : List Op → Prop
  | [] => True
  | .write name chunk :: ops =>
    (m.stream name).WriteSafe o maxBuffersize uninit m.pagefile chunk.val ∧
    ∀ m', m.write o minBuffersize maxBuffersize uninit name chunk.val = .ok m' → m'.RunSafe ops
  | .read name :: ops => ∀ str m', m.read o name = .ok (str, m') → m'.RunSafe ops

end Safety

/-- How often a buffer of 18 bytes is doubled while it is smaller than the maximum. -/
def doublings (maxBuffersize : UInt32) : ℕ := Nat.clog 2 (maxBuffersize.toNat ⌈/⌉ 18)

/-- The bytes that a stream takes before its buffer cannot grow or its counter is at its end. -/
def capacity (maxBuffersize : UInt32) : ℕ := min 65535 (18 * 2 ^ doublings maxBuffersize)

theorem lt_doublings_iff {maxBuffersize : UInt32} {k : ℕ} :
    k < doublings maxBuffersize ↔ 18 * 2 ^ k < maxBuffersize.toNat := by
  rw [doublings, Nat.lt_clog_iff_pow_lt (by decide), ← not_le, ceilDiv_le_iff_le_mul (by decide),
    not_le]

/-- Above this maximum the last size of a buffer is above that of a page. -/
theorem dataSize_lt_last {maxBuffersize : UInt32} (h : 4608 < maxBuffersize) :
    dataSize < 18 * 2 ^ doublings maxBuffersize := by
  have hnine : 9 ≤ doublings maxBuffersize := by
    apply lt_doublings_iff.mpr
    exact UInt32.lt_iff_toNat_lt.mp h
  have hpow : 2 ^ 9 ≤ 2 ^ doublings maxBuffersize := Nat.pow_le_pow_right (by decide) hnine
  have hd : dataSize = 8186 := rfl
  omega

theorem capacity_le_counter (maxBuffersize : UInt32) : capacity maxBuffersize ≤ 65535 :=
  Nat.min_le_left _ _

theorem capacity_le_last (maxBuffersize : UInt32) :
    capacity maxBuffersize ≤ 18 * 2 ^ doublings maxBuffersize := Nat.min_le_right _ _

namespace Stream
variable {o : ByteOrder} {maxBuffersize : UInt32} {uninit : Page} {s s' : Stream} {f f' : Pagefile}
  {n : ℕ}

theorem put_eq (s : Stream) (f : Pagefile) (ch : UInt8) :
    s.put o maxBuffersize uninit f ch = s.makeRoom o maxBuffersize uninit f >>= fun r =>
      r.1.store ch >>= fun s => .ok (s, r.2) := by
  rw [put, makeRoom]
  split_ifs <;> rfl

theorem newPage_counters {page : Page} (h : s.newPage o f page = .ok (s', f')) :
    s'.ppos = 0 ∧ s'.buffersize = s.buffersize := by
  rw [newPage] at h
  obtain ⟨q, -, h⟩ := Fallible.bind_eq_ok.mp h
  obtain ⟨f₁, -, h⟩ := Fallible.bind_eq_ok.mp h
  split_ifs at h with hfirst
  · cases h
    exact ⟨rfl, rfl⟩
  · obtain ⟨f₂, -, h⟩ := Fallible.bind_eq_ok.mp h
    cases h
    exact ⟨rfl, rfl⟩

/-- A page with room, whatever it holds, takes at least one byte and no more than there are. -/
theorem fillPage_counters {page : Page} (hpos : s.ppos ≠ 0) (hfree : page.free ≠ 0)
    (h : s.fillPage o f page = .ok (s', f')) :
    s'.ppos < s.ppos ∧ s'.buffersize = s.buffersize := by
  rw [fillPage] at h
  obtain ⟨q, -, h⟩ := Fallible.bind_eq_ok.mp h
  obtain ⟨f₁, -, h⟩ := Fallible.bind_eq_ok.mp h
  cases h
  have hpos' : s.ppos.toNat ≠ 0 := fun he => hpos (UInt16.toNat_inj.mp he)
  have hfree' : page.free.toNat ≠ 0 := fun he => hfree (UInt16.toNat_inj.mp he)
  have hcount := toNat_min s.ppos page.free
  refine ⟨?_, rfl⟩
  rw [UInt16.lt_iff_toNat_lt]
  simp only [toNat_sub_min]
  omega

/-- What `overflow` does to the counters: nothing, or it doubles the buffer, or it takes bytes
from it. -/
theorem overflow_cases (h : s.overflow o maxBuffersize uninit f = .ok (s', f')) :
    (s.ppos = 0 ∧ s' = s) ∨
    (s.buffersize < maxBuffersize ∧ s'.ppos = s.ppos ∧ s'.buffersize = s.buffersize * 2) ∨
    (s'.ppos < s.ppos ∧ s'.buffersize = s.buffersize) := by
  have hnew {f : Pagefile} {page : Page} (hpos : s.ppos ≠ 0)
      (h : s.newPage o f page = .ok (s', f')) :
      s'.ppos < s.ppos ∧ s'.buffersize = s.buffersize := by
    obtain ⟨hppos, hsize⟩ := newPage_counters h
    exact ⟨hppos ▸ UInt16.pos_iff_ne_zero.mpr hpos, hsize⟩
  unfold overflow at h
  split_ifs at h with hpos hmax hcur
  · cases h
    exact .inl ⟨hpos, rfl⟩
  · cases h
    exact .inr (.inl ⟨hmax, rfl, rfl⟩)
  · obtain ⟨⟨page, f₁⟩, -, h⟩ := Fallible.bind_eq_ok.mp h
    by_cases hfree : page.free ≠ 0
    · simp only [if_pos hfree] at h
      exact .inr (.inr (fillPage_counters hpos hfree h))
    · simp only [if_neg hfree] at h
      exact .inr (.inr (hnew hpos h))
  · exact .inr (.inr (hnew hpos h))

/-- The buffer was doubled a number of times, each time from a size below the maximum, and its
counter is within it. -/
structure Sized (maxBuffersize : UInt32) (s : Stream) : Prop where
  size : ∃ k ≤ doublings maxBuffersize, k ≤ 12 ∧ s.buffersize.toNat = 18 * 2 ^ k
  ppos : s.ppos.toNat ≤ s.buffersize.toNat

theorem new_sized : (new minBuffersize).Sized maxBuffersize :=
  ⟨⟨0, Nat.zero_le _, by decide, rfl⟩, Nat.zero_le _⟩

namespace Sized

theorem buffersize_pos (h : s.Sized maxBuffersize) : 0 < s.buffersize.toNat := by
  obtain ⟨k, -, -, hsize⟩ := h.size
  rw [hsize]
  exact Nat.mul_pos (by decide) (Nat.two_pow_pos k)

/-- A buffer as large as its counter has been doubled at most eleven times. -/
theorem double (h : s.Sized maxBuffersize) (hfull : s.buffersize ≤ s.ppos.toUInt32)
    (hmax : s.buffersize < maxBuffersize) :
    ∃ k < doublings maxBuffersize, k < 12 ∧ s.buffersize.toNat = 18 * 2 ^ k ∧
      (s.buffersize * 2).toNat = 18 * 2 ^ (k + 1) := by
  obtain ⟨k, -, -, hsize⟩ := h.size
  have hfull' : s.buffersize.toNat ≤ s.ppos.toNat := UInt32.le_iff_toNat_le.mp hfull
  have hppos := s.ppos.toNat_lt
  have hk : k < 12 := by
    by_contra hk
    have hpow : 2 ^ 12 ≤ 2 ^ k := Nat.pow_le_pow_right (by decide) (not_lt.mp hk)
    omega
  refine ⟨k, ?_, hk, hsize, ?_⟩
  · rw [lt_doublings_iff, ← hsize]
    exact UInt32.lt_iff_toNat_lt.mp hmax
  · rw [UInt32.toNat_mul, show (2 : UInt32).toNat = 2 from rfl, pow_succ]
    omega

theorem makeRoom (h : s.Sized maxBuffersize)
    (he : s.makeRoom o maxBuffersize uninit f = .ok (s', f')) :
    s'.Sized maxBuffersize ∧ s'.ppos ≤ s.ppos ∧ s'.ppos.toNat < s'.buffersize.toNat := by
  have hpos := h.buffersize_pos
  have hppos := h.ppos
  rw [Stream.makeRoom] at he
  split_ifs at he with hfull
  · have hfull' : s.buffersize.toNat ≤ s.ppos.toNat := UInt32.le_iff_toNat_le.mp hfull
    rcases overflow_cases he with ⟨hzero, rfl⟩ | ⟨hmax, hppos', hsize'⟩ | ⟨hlt, hsize'⟩
    · rw [hzero] at hfull'
      exact absurd hfull' (not_le.mpr hpos)
    · obtain ⟨k, hk, hk', hsize, hdouble⟩ := h.double hfull hmax
      have hroom : s'.ppos.toNat < s'.buffersize.toNat := by
        rw [hppos', hsize', hdouble, pow_succ]
        omega
      exact ⟨⟨⟨k + 1, hk, hk', hsize' ▸ hdouble⟩, hroom.le⟩, hppos' ▸ UInt16.le_refl _, hroom⟩
    · have hlt' := UInt16.lt_iff_toNat_lt.mp hlt
      have hroom : s'.ppos.toNat < s'.buffersize.toNat := by
        rw [hsize']
        omega
      exact ⟨⟨hsize' ▸ h.size, hroom.le⟩, UInt16.le_of_lt hlt, hroom⟩
  · cases he
    exact ⟨h, UInt16.le_refl _, UInt32.lt_iff_toNat_lt.mp (UInt32.not_le.mp hfull)⟩

theorem put (h : s.Sized maxBuffersize) {ch : UInt8}
    (he : s.put o maxBuffersize uninit f ch = .ok (s', f')) : s'.Sized maxBuffersize := by
  rw [put_eq] at he
  obtain ⟨⟨s₁, f₁⟩, hroom, he⟩ := Fallible.bind_eq_ok.mp he
  obtain ⟨s₂, hstore, he⟩ := Fallible.bind_eq_ok.mp he
  cases he
  obtain ⟨h₁, -, hlt⟩ := h.makeRoom hroom
  rw [store] at hstore
  split_ifs at hstore
  cases hstore
  have hadd : (s₁.ppos + 1).toNat ≤ s₁.ppos.toNat + 1 := by
    rw [UInt16.toNat_add]
    exact Nat.mod_le _ _
  exact ⟨h₁.size, hadd.trans hlt⟩

theorem write (bs : Bytes) (h : s.Sized maxBuffersize)
    (he : s.write o maxBuffersize uninit f bs = .ok (s', f')) : s'.Sized maxBuffersize := by
  induction bs generalizing s f with
  | nil =>
    cases he
    exact h
  | cons ch bs ih =>
    rw [Stream.write] at he
    obtain ⟨⟨s₁, f₁⟩, hput, he⟩ := Fallible.bind_eq_ok.mp he
    exact ih (h.put hput) he

/-- A buffer that ends below the size of a page is safe, whatever the file holds. -/
theorem putSafe (h : s.Sized maxBuffersize) (hmax : maxBuffersize ≤ 4608) :
    s.PutSafe o maxBuffersize uninit f := by
  have hbound {s : Stream} (h : s.Sized maxBuffersize) : s.buffersize.toNat ≤ 4608 := by
    obtain ⟨k, hk, -, hsize⟩ := h.size
    have hk' : k ≤ 8 := by
      refine hk.trans (not_lt.mp fun hlt => ?_)
      have hlt' := lt_doublings_iff.mp hlt
      have hmax' := UInt32.le_iff_toNat_le.mp hmax
      simp only [UInt32.reduceToNat] at hmax'
      omega
    have hpow : 2 ^ k ≤ 2 ^ 8 := Nat.pow_le_pow_right (by decide) hk'
    omega
  refine ⟨h.ppos, ?_, ?_, ?_⟩
  · intro _ _
    have hd : dataSize = 8186 := rfl
    have hle := hbound h
    have hppos := h.ppos
    omega
  · intro s' f' he
    exact (h.makeRoom he).2.1
  · intro s' f' he
    obtain ⟨h', -, hlt⟩ := h.makeRoom he
    have hle := hbound h'
    exact ⟨by omega, hlt⟩

theorem writeSafe (bs : Bytes) (h : s.Sized maxBuffersize) (hmax : maxBuffersize ≤ 4608) :
    s.WriteSafe o maxBuffersize uninit f bs := by
  induction bs generalizing s f with
  | nil => trivial
  | cons ch bs ih => exact ⟨h.putSafe hmax, fun s' f' he => ih (h.put he)⟩

end Sized

/-- The stream has no pages, and `n` bytes in its buffer. -/
structure Buffered (maxBuffersize : UInt32) (s : Stream) (n : ℕ) : Prop
    extends Sized maxBuffersize s where
  firstPage : s.firstPage = noPage
  currentPage : s.currentPage = noPage
  data : s.data.length = s.buffersize.toNat
  count : s.ppos.toNat = n

theorem new_buffered : (new minBuffersize).Buffered maxBuffersize 0 :=
  ⟨new_sized, rfl, rfl, rfl, rfl⟩

namespace Buffered

/-- Below the capacity a full buffer has not reached its last size. -/
theorem lt_maxBuffersize (h : s.Buffered maxBuffersize n) (hn : n < capacity maxBuffersize)
    (hfull : s.buffersize ≤ s.ppos.toUInt32) : s.buffersize < maxBuffersize := by
  obtain ⟨k, -, -, hsize⟩ := h.size
  have hfull' : s.buffersize.toNat ≤ s.ppos.toNat := UInt32.le_iff_toNat_le.mp hfull
  have hcount := h.count
  have hlt : 18 * 2 ^ k < 18 * 2 ^ doublings maxBuffersize := by
    have hlast := capacity_le_last maxBuffersize
    omega
  have hk := (Nat.pow_lt_pow_iff_right (by decide)).mp (Nat.lt_of_mul_lt_mul_left hlt)
  rw [UInt32.lt_iff_toNat_lt, hsize]
  exact lt_doublings_iff.mp hk

theorem makeRoom (o : ByteOrder) (uninit : Page) (f : Pagefile)
    (h : s.Buffered maxBuffersize n) (hn : n < capacity maxBuffersize) :
    ∃ s', s.makeRoom o maxBuffersize uninit f = .ok (s', f) ∧ s'.Buffered maxBuffersize n ∧
      n < s'.buffersize.toNat ∧ s'.data.take n = s.data.take n := by
  have hcount := h.count
  have hppos := h.ppos
  have hsome := h.buffersize_pos
  by_cases hfull : s.buffersize ≤ s.ppos.toUInt32
  · have hfull' : s.buffersize.toNat ≤ s.ppos.toNat := UInt32.le_iff_toNat_le.mp hfull
    have hmax := h.lt_maxBuffersize hn hfull
    have hpos : s.ppos ≠ 0 := by
      intro hzero
      rw [hzero] at hfull'
      exact absurd hfull' (not_le.mpr hsome)
    obtain ⟨k, hk, hk', hsize, hdouble⟩ := h.double hfull hmax
    have hroom : n < (s.buffersize * 2).toNat := by
      rw [hdouble, pow_succ]
      omega
    have hdata : (s.data ++ List.replicate s.data.length 0).length =
        (s.buffersize * 2).toNat := by
      rw [List.length_append, List.length_replicate, h.data, hdouble, hsize, pow_succ]
      omega
    refine ⟨{ s with buffersize := s.buffersize * 2,
                     data := s.data ++ List.replicate s.data.length 0 }, ?_,
      ⟨⟨⟨k + 1, hk, hk', hdouble⟩, hcount.le.trans hroom.le⟩, h.firstPage, h.currentPage, hdata,
        hcount⟩, hroom, ?_⟩
    · rw [Stream.makeRoom, if_pos hfull, overflow, if_neg hpos, if_pos hmax]
    · rw [List.take_append_of_le_length]
      rw [h.data]
      omega
  · have hlt := UInt32.lt_iff_toNat_lt.mp (UInt32.not_le.mp hfull)
    exact ⟨s, if_neg hfull, h, hcount ▸ hlt, rfl⟩

theorem put (o : ByteOrder) (uninit : Page) (f : Pagefile)
    (h : s.Buffered maxBuffersize n) (hn : n < capacity maxBuffersize) (ch : UInt8) :
    ∃ s', s.put o maxBuffersize uninit f ch = .ok (s', f) ∧ s'.Buffered maxBuffersize (n + 1) ∧
      s'.data.take (n + 1) = s.data.take n ++ [ch] := by
  obtain ⟨s₁, hroom, h₁, hlt, htake⟩ := h.makeRoom o uninit f hn
  have hcount := h₁.count
  have hdata := h₁.data
  have hnext : (s₁.ppos + 1).toNat = n + 1 := by
    have hend := capacity_le_counter maxBuffersize
    rw [UInt16.toNat_add, show (1 : UInt16).toNat = 1 from rfl]
    omega
  have hstore : s₁.store ch =
      .ok { s₁ with data := s₁.data.set s₁.ppos.toNat ch, ppos := s₁.ppos + 1 } := by
    rw [store, if_pos (by omega)]
  refine ⟨{ s₁ with data := s₁.data.set s₁.ppos.toNat ch, ppos := s₁.ppos + 1 }, ?_,
    ⟨⟨h₁.size, hnext.le.trans hlt⟩, h₁.firstPage, h₁.currentPage, ?_, hnext⟩, ?_⟩
  · rw [put_eq]
    exact Fallible.bind_eq_ok.mpr ⟨(s₁, f), hroom, Fallible.bind_eq_ok.mpr ⟨_, hstore, rfl⟩⟩
  · simpa only [List.length_set] using hdata
  · rw [← htake, List.take_add_one, hcount, List.take_set_of_le (le_refl _),
      List.getElem?_set_self (by omega)]
    rfl

theorem putSafe (h : s.Buffered maxBuffersize n) (hn : n < capacity maxBuffersize) :
    s.PutSafe o maxBuffersize uninit f := by
  refine ⟨h.ppos, ?_, ?_, ?_⟩
  · intro hfull hcopies
    exact absurd (h.lt_maxBuffersize hn hfull) hcopies.2.1
  · intro s' f' he
    exact (h.toSized.makeRoom he).2.1
  · intro s' f' he
    obtain ⟨s₁, hroom, h₁, hlt, -⟩ := h.makeRoom o uninit f hn
    rw [hroom] at he
    cases he
    have hend := capacity_le_counter maxBuffersize
    have hcount := h₁.count
    omega

/-- A full buffer of the last size goes to a new page. -/
theorem copiesToPage (o : ByteOrder) (f : Pagefile)
    (h : s.Buffered maxBuffersize (18 * 2 ^ doublings maxBuffersize)) :
    s.buffersize ≤ s.ppos.toUInt32 ∧ s.CopiesToPage o maxBuffersize f := by
  obtain ⟨k, hk, -, hsize⟩ := h.size
  have hppos := h.ppos
  have hcount := h.count
  have hle : 2 ^ k ≤ 2 ^ doublings maxBuffersize := Nat.pow_le_pow_right (by decide) hk
  have hpow : 2 ^ k = 2 ^ doublings maxBuffersize := by omega
  have hlast : k = doublings maxBuffersize := Nat.pow_right_injective (le_refl 2) hpow
  have hfull : s.buffersize.toNat ≤ s.ppos.toNat := by
    rw [hsize, hcount, hlast]
  refine ⟨UInt32.le_iff_toNat_le.mpr hfull, ?_, ?_, fun hne => absurd h.currentPage hne⟩
  · intro hzero
    rw [hzero] at hfull
    exact absurd hfull (not_le.mpr h.buffersize_pos)
  · rw [UInt32.lt_iff_toNat_lt, hsize, ← lt_doublings_iff, hlast]
    exact lt_irrefl _

/-- No size of a buffer is the greatest value of the counter. -/
theorem not_full (h : s.Buffered maxBuffersize 65535) : ¬ s.buffersize ≤ s.ppos.toUInt32 := by
  intro hfull
  have hfull' : s.buffersize.toNat ≤ s.ppos.toNat := UInt32.le_iff_toNat_le.mp hfull
  obtain ⟨k, -, -, hsize⟩ := h.size
  have hppos := h.ppos
  have hcount := h.count
  omega

/-- Where the last size of the buffer is above the size of a page, a `put` at the capacity copies
too much or wraps the counter. -/
theorem not_putSafe (h : s.Buffered maxBuffersize (capacity maxBuffersize))
    (hmax : 4608 < maxBuffersize) : ¬ s.PutSafe o maxBuffersize uninit f := by
  intro hsafe
  rw [capacity] at h
  rcases min_choice 65535 (18 * 2 ^ doublings maxBuffersize) with hend | hend
  · rw [hend] at h
    have hwrap := (hsafe.counted s f (if_neg h.not_full)).1
    have hcount := h.count
    omega
  · rw [hend] at h
    obtain ⟨hfull, hcopies⟩ := h.copiesToPage o f
    have hpage := hsafe.page hfull hcopies
    have hlast := dataSize_lt_last hmax
    have hcount := h.count
    omega

theorem write (o : ByteOrder) (uninit : Page) (f : Pagefile) (bs : Bytes)
    (h : s.Buffered maxBuffersize n)
    (hn : n + bs.length ≤ capacity maxBuffersize) :
    ∃ s', s.write o maxBuffersize uninit f bs = .ok (s', f) ∧
      s'.Buffered maxBuffersize (n + bs.length) := by
  induction bs generalizing s n with
  | nil => exact ⟨s, rfl, h⟩
  | cons ch bs ih =>
    rw [List.length_cons] at hn
    obtain ⟨s₁, hput, h₁, -⟩ := h.put o uninit f (by omega) ch
    obtain ⟨s', hwrite, h'⟩ := ih h₁ (by omega)
    refine ⟨s', ?_, ?_⟩
    · rw [Stream.write, hput]
      exact hwrite
    · rw [List.length_cons, ← Nat.add_assoc, Nat.add_right_comm]
      exact h'

theorem writeSafe_iff (o : ByteOrder) (uninit : Page) (f : Pagefile) (bs : Bytes)
    (h : s.Buffered maxBuffersize n)
    (hn : n ≤ capacity maxBuffersize) (hmax : 4608 < maxBuffersize) :
    s.WriteSafe o maxBuffersize uninit f bs ↔ n + bs.length ≤ capacity maxBuffersize := by
  induction bs generalizing s n with
  | nil => exact iff_of_true trivial hn
  | cons ch bs ih =>
    rw [WriteSafe, List.length_cons]
    by_cases hlt : n < capacity maxBuffersize
    · obtain ⟨s₁, hput, h₁, -⟩ := h.put o uninit f hlt ch
      rw [← Nat.add_assoc, Nat.add_right_comm, ← ih h₁ hlt, hput]
      simp only [h.putSafe hlt, true_and]
      constructor
      · intro hall
        exact hall s₁ f rfl
      · intro hsafe s' f' he
        cases he
        exact hsafe
    · obtain rfl : n = capacity maxBuffersize := le_antisymm hn (not_lt.mp hlt)
      refine iff_of_false (fun hsafe => h.not_putSafe hmax hsafe.1) ?_
      omega

end Buffered

end Stream

/-- What is written to a name is never taken back. -/
theorem length_le_written (ops : List Op) (w : Bytes → Bytes) (name : Bytes) :
    (w name).length ≤ (written w ops name).length := by
  induction ops generalizing w with
  | nil => exact le_refl _
  | cons op ops ih =>
    cases op with
    | read streamname => exact ih w
    | write streamname chunk =>
      refine le_trans ?_ (ih _)
      by_cases hname : name = streamname
      · rw [hname, Function.update_self, List.length_append]
        exact Nat.le_add_right _ _
      · rw [Function.update_of_ne hname]

namespace MStream
variable {o : ByteOrder} {maxBuffersize : UInt32} {uninit : Page}

@[simp] theorem stream_update_self (m : MStream) (f : Pagefile) (name : Bytes) (s : Stream) :
    (⟨Function.update m.streams name (some s), f⟩ : MStream).stream name = s := by
  simp [stream]

theorem stream_update_of_ne (m : MStream) (f : Pagefile) {name streamname : Bytes} (s : Stream)
    (h : streamname ≠ name) :
    (⟨Function.update m.streams name (some s), f⟩ : MStream).stream streamname =
      m.stream streamname := by
  simp [stream, h]

/-- With a maximum under which no buffer outgrows a page every run is safe. -/
theorem runSafe_of_le (hmax : maxBuffersize ≤ 4608) (ops : List Op) {m : MStream}
    (h : ∀ name, (m.stream name).Sized maxBuffersize) :
    m.RunSafe o maxBuffersize uninit ops := by
  induction ops generalizing m with
  | nil => trivial
  | cons op ops ih =>
    cases op with
    | write name chunk =>
      refine ⟨(h name).writeSafe chunk.val hmax, fun m' he => ih fun streamname => ?_⟩
      obtain ⟨⟨s', f'⟩, hwrite, he⟩ := Fallible.bind_eq_ok.mp he
      cases he
      by_cases hname : streamname = name
      · rw [hname, stream_update_self]
        exact (h name).write chunk.val hwrite
      · rw [stream_update_of_ne m f' s' hname]
        exact h streamname
    | read name =>
      intro str m' he
      apply ih
      rw [read] at he
      cases hs : m.streams name with
      | none =>
        rw [hs] at he
        cases he
        exact h
      | some s =>
        rw [hs] at he
        obtain ⟨⟨str', f'⟩, -, he⟩ := Fallible.bind_eq_ok.mp he
        cases he
        exact h

/-- No stream has any pages, and each has in its buffer what was written to it. -/
def Unpaged (maxBuffersize : UInt32) (m : MStream) (w : Bytes → Bytes) : Prop :=
  ∀ name, (m.stream name).Buffered maxBuffersize (w name).length

namespace Unpaged
variable {m : MStream} {w : Bytes → Bytes}

theorem empty : Unpaged maxBuffersize .empty fun _ => [] := fun _ => Stream.new_buffered

theorem write (o : ByteOrder) (uninit : Page) (h : m.Unpaged maxBuffersize w) (name bs : Bytes)
    (hbs : (w name ++ bs).length ≤ capacity maxBuffersize) :
    ∃ m', m.write o minBuffersize maxBuffersize uninit name bs = .ok m' ∧
      m'.Unpaged maxBuffersize (Function.update w name (w name ++ bs)) := by
  rw [List.length_append] at hbs
  obtain ⟨s', hwrite, hs'⟩ := (h name).write o uninit m.pagefile bs hbs
  refine ⟨⟨Function.update m.streams name (some s'), m.pagefile⟩, ?_, fun streamname => ?_⟩
  · rw [MStream.write, ← stream, hwrite]
    rfl
  · by_cases hname : streamname = name
    · rw [hname, stream_update_self, Function.update_self, List.length_append]
      exact hs'
    · rw [stream_update_of_ne m m.pagefile s' hname, Function.update_of_ne hname]
      exact h streamname

theorem read (h : m.Unpaged maxBuffersize w) (name : Bytes) :
    ∃ str, m.read o name = .ok (str, m) := by
  rw [MStream.read]
  cases hs : m.streams name with
  | none => exact ⟨[], rfl⟩
  | some s =>
    have hfirst : s.firstPage = noPage := by
      have hbuffered := h name
      rw [stream, hs] at hbuffered
      exact hbuffered.firstPage
    exact ⟨[] ++ s.data.take s.ppos.toNat, by
      simp only [Stream.read, Stream.readLoop, if_pos hfirst, bind, Except.bind]⟩

end Unpaged

/-- With a greater maximum a run is safe exactly if no stream gets more than the capacity. -/
theorem runSafe_iff (hmax : 4608 < maxBuffersize) (ops : List Op) {m : MStream}
    {w : Bytes → Bytes} (h : m.Unpaged maxBuffersize w)
    (hw : ∀ name, (w name).length ≤ capacity maxBuffersize) :
    m.RunSafe o maxBuffersize uninit ops ↔
      ∀ name, (written w ops name).length ≤ capacity maxBuffersize := by
  induction ops generalizing m w with
  | nil => exact iff_of_true trivial hw
  | cons op ops ih =>
    cases op with
    | write name chunk =>
      have hsafe := (h name).writeSafe_iff o uninit m.pagefile chunk.val (hw name) hmax
      rw [← List.length_append] at hsafe
      rw [RunSafe, written, hsafe]
      by_cases hbs : (w name ++ chunk.val).length ≤ capacity maxBuffersize
      · obtain ⟨m', hwrite, h'⟩ := h.write o uninit name chunk.val hbs
        have hw' : ∀ streamname, (Function.update w name (w name ++ chunk.val) streamname).length ≤
            capacity maxBuffersize := by
          intro streamname
          by_cases hname : streamname = name
          · rw [hname, Function.update_self]
            exact hbs
          · rw [Function.update_of_ne hname]
            exact hw streamname
        rw [← ih h' hw', hwrite]
        simp only [hbs, true_and]
        constructor
        · intro hall
          exact hall m' rfl
        · intro hrun m'' he
          cases he
          exact hrun
      · refine iff_of_false (fun hrun => hbs hrun.1) fun hall => hbs ?_
        have hle := length_le_written ops (Function.update w name (w name ++ chunk.val)) name
        rw [Function.update_self] at hle
        exact hle.trans (hall name)
    | read name =>
      obtain ⟨str, hread⟩ := h.read (o := o) name
      rw [RunSafe, written, ← ih h hw, hread]
      constructor
      · intro hall
        exact hall str m rfl
      · intro hrun str' m' he
        cases he
        exact hrun

end MStream

/-- With a memory factor the arithmetic of every `put` in a run is safe exactly if no buffer
outgrows a page, or no stream gets more bytes than its buffer and its counter can take. -/
theorem runSafe_memoryFactor_iff (o : ByteOrder) (uninit : Page) (memoryFactor : UInt32)
    (ops : List Op) :
    MStream.empty.RunSafe o (indexerMaxBuffersize memoryFactor) uninit ops ↔
      indexerMaxBuffersize memoryFactor ≤ 4608 ∨
        ∀ name, (written (fun _ => []) ops name).length ≤
          capacity (indexerMaxBuffersize memoryFactor) := by
  by_cases hmax : indexerMaxBuffersize memoryFactor ≤ 4608
  · exact iff_of_true (MStream.runSafe_of_le hmax ops fun _ => Stream.new_sized) (.inl hmax)
  · rw [or_iff_right hmax]
    exact MStream.runSafe_iff (UInt32.not_le.mp hmax) ops .empty fun _ => Nat.zero_le _

/-- With factor 257 the first page of a stream gets 9216 bytes. -/
theorem not_runSafe_memoryFactor : ¬ ∀ (o : ByteOrder) (uninit : Page) (memoryFactor : UInt32)
    (ops : List Op), MStream.empty.RunSafe o (indexerMaxBuffersize memoryFactor) uninit ops := by
  intro hall
  have hmax : 4608 < indexerMaxBuffersize 257 := by decide
  have hlast : doublings (indexerMaxBuffersize 257) ≤ 9 := by
    rw [← not_lt, lt_doublings_iff]
    decide
  have hcapacity : capacity (indexerMaxBuffersize 257) ≤ 9216 :=
    (capacity_le_last _).trans (Nat.mul_le_mul_left 18 (Nat.pow_le_pow_right (by decide) hlast))
  have hrun := hall .little .blank 257 [.write [0x61] ⟨List.replicate 9217 0, by
    rw [List.length_replicate]
    decide⟩]
  have hlength := (MStream.runSafe_iff hmax _ .empty fun _ => Nat.zero_le _).mp hrun [0x61]
  rw [written, written, Function.update_self, List.nil_append, List.length_replicate] at hlength
  exact absurd (hlength.trans hcapacity) (by decide)

end Zim.Mstream
