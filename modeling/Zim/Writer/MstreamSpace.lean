import Mathlib.Algebra.Order.BigOperators.Group.Finset
import Zim.Lib.Fallible
import Zim.Writer.MstreamRuns

/-! The size of the page file. A page is taken for a full buffer only, so that every page is paid
for by the 1152 characters put before it, and as many pages as there are numbers need 1152 times as
many characters. -/
namespace Zim.Mstream
open Cxx Fallible
namespace Stream
variable {o : ByteOrder} {uninit page : Page} {s s' : Stream} {f f' : Pagefile}

theorem putPage_nextPage {num : UInt32} {size : ℕ} (h : f.putPage o num page size = .ok f') :
    f'.nextPage = f.nextPage := by
  simp only [Pagefile.putPage] at h
  split_ifs at h
  cases h
  rfl

theorem getPage_nextPage {num : UInt32} (h : f.getPage o num = .ok (page, f')) :
    f'.nextPage = f.nextPage := by
  simp only [Pagefile.getPage] at h
  split_ifs at h
  cases h
  rfl

theorem newPage_cost (h : s.newPage o f page = .ok (s', f')) :
    f'.nextPage = f.nextPage + 1 ∧ s'.ppos = 0 := by
  simp only [newPage, bind_eq_ok] at h
  obtain ⟨q, -, f₁, hput, h⟩ := h
  have hfirst : f₁.nextPage = f.nextPage + 1 := putPage_nextPage hput
  split_ifs at h
  · cases h
    exact ⟨hfirst, rfl⟩
  · obtain ⟨f₂, hlink, h⟩ := bind_eq_ok.mp h
    cases h
    exact ⟨(putPage_nextPage hlink).trans hfirst, rfl⟩

theorem fillPage_cost (h : s.fillPage o f page = .ok (s', f')) :
    f'.nextPage = f.nextPage ∧ s'.ppos.toNat ≤ s.ppos.toNat := by
  simp only [fillPage, bind_eq_ok] at h
  obtain ⟨q, -, f₁, hput, h⟩ := h
  cases h
  refine ⟨putPage_nextPage hput, ?_⟩
  rw [toNat_sub_min]
  exact Nat.sub_le _ _

/-- A page is taken where the buffer has its full size, and the buffer is empty then. -/
theorem overflow_cost {maxBuffersize : UInt32}
    (h : s.overflow o maxBuffersize uninit f = .ok (s', f')) :
    f'.nextPage = f.nextPage ∧ s'.ppos.toNat ≤ s.ppos.toNat ∨
      f'.nextPage = f.nextPage + 1 ∧ maxBuffersize ≤ s.buffersize ∧ s'.ppos = 0 := by
  unfold overflow at h
  split_ifs at h with hpos hmax hcur
  · cases h
    exact .inl ⟨rfl, le_refl _⟩
  · cases h
    exact .inl ⟨rfl, le_refl _⟩
  · obtain ⟨⟨p, f₁⟩, hget, h⟩ := bind_eq_ok.mp h
    have hsame := getPage_nextPage hget
    simp only at h
    split_ifs at h
    · obtain ⟨hnext, hppos⟩ := fillPage_cost h
      exact .inl ⟨hnext.trans hsame, hppos⟩
    · obtain ⟨hnext, hppos⟩ := newPage_cost h
      exact .inr ⟨by rw [hnext, hsame], UInt32.not_lt.mp hmax, hppos⟩
  · obtain ⟨hnext, hppos⟩ := newPage_cost h
    exact .inr ⟨hnext, UInt32.not_lt.mp hmax, hppos⟩

theorem store_cost {ch : UInt8} (h : s.store ch = .ok s') :
    s'.ppos.toNat ≤ s.ppos.toNat + 1 := by
  unfold store at h
  split_ifs at h
  cases h
  rw [UInt16.toNat_add, show (1 : UInt16).toNat = 1 from rfl]
  exact Nat.mod_le _ _

theorem put_cost {ch : UInt8} (h : s.put o 1152 uninit f ch = .ok (s', f')) :
    f'.nextPage = f.nextPage ∧ s'.ppos.toNat ≤ s.ppos.toNat + 1 ∨
      f'.nextPage = f.nextPage + 1 ∧ s'.ppos.toNat + 1152 ≤ s.ppos.toNat + 1 := by
  by_cases hfull : s.buffersize ≤ s.ppos.toUInt32
  · simp only [put, if_pos hfull, bind_eq_ok] at h
    obtain ⟨⟨s₁, f₁⟩, hroom, s₂, hstore, h⟩ := h
    cases h
    have hput : s'.ppos.toNat ≤ s₁.ppos.toNat + 1 := store_cost hstore
    rcases overflow_cost hroom with ⟨hnext, hppos⟩ | ⟨hnext, hmax, hppos⟩
    · exact .inl ⟨hnext, by omega⟩
    · have hle : (1152 : UInt32).toNat ≤ s.ppos.toUInt32.toNat :=
        UInt32.le_iff_toNat_le.mp (UInt32.le_trans hmax hfull)
      have hzero : s₁.ppos.toNat = 0 := by rw [hppos]; rfl
      have hsame : s.ppos.toUInt32.toNat = s.ppos.toNat := rfl
      have hconst : (1152 : UInt32).toNat = 1152 := rfl
      exact .inr ⟨hnext, by omega⟩
  · simp only [put, if_neg hfull, bind_eq_ok] at h
    obtain ⟨⟨s₁, f₁⟩, hsame, s₂, hstore, h⟩ := h
    cases hsame
    cases h
    exact .inl ⟨rfl, store_cost hstore⟩

variable {pages : List Page} {cells : List (ℕ × Page)} {c : Bytes}

/-- A write takes a page for every 1152 characters that it moves out of the buffer. -/
theorem write_space (uninit : Page) (bs : Bytes) (hf : f.Pages o pages)
    (h : Holds pages s cells c)
    (hfew : 1152 * pages.length + s.ppos.toNat + bs.length < 1152 * (2 ^ 32 - 1)) :
    ∃ s' f' pages' cells', s.write o 1152 uninit f bs = .ok (s', f') ∧ f'.Pages o pages' ∧
      Holds pages' s' cells' (c ++ bs) ∧ Grows pages cells pages' cells' ∧
      1152 * pages'.length + s'.ppos.toNat ≤ 1152 * pages.length + s.ppos.toNat + bs.length := by
  induction bs generalizing s f pages cells c with
  | nil => exact ⟨s, f, pages, cells, rfl, hf, by rwa [List.append_nil], Grows.refl _ _, le_refl _⟩
  | cons ch bs ih =>
    rw [List.length_cons] at hfew
    obtain ⟨s₁, f₁, pages₁, cells₁, hput, hf₁, h₁, hgrows₁⟩ :=
      put_spec uninit hf (by omega) h ch
    have hcost : 1152 * pages₁.length + s₁.ppos.toNat ≤
        1152 * pages.length + s.ppos.toNat + 1 := by
      have hnow := congrArg UInt32.toNat hf.next
      have hthen := congrArg UInt32.toNat hf₁.next
      rw [Pagefile.ofNat_toNat_of_lt hf.few] at hnow
      rw [Pagefile.ofNat_toNat_of_lt hf₁.few] at hthen
      rcases put_cost hput with ⟨hnext, hppos⟩ | ⟨hnext, hppos⟩
      · rw [hnext] at hthen
        omega
      · rw [hnext, UInt32.toNat_add, hnow, show (1 : UInt32).toNat = 1 from rfl,
          Nat.mod_eq_of_lt (by omega)] at hthen
        omega
    obtain ⟨s', f', pages', cells', hw, hf', h', hgrows, hspace⟩ := ih hf₁ h₁ (by omega)
    refine ⟨s', f', pages', cells', ?_, hf', ?_, hgrows₁.trans hgrows, ?_⟩
    · simp only [write, hput, hw, bind, Except.bind]
    · rwa [List.append_assoc] at h'
    · rw [List.length_cons]
      omega

end Stream

/-- The characters in the buffers of the streams with the given names. -/
def MStream.buffered (m : MStream) (names : Finset Bytes) : ℕ :=
  ∑ name ∈ names, ((m.streams name).getD (.new minBuffersize)).ppos.toNat

/-- All the pages, and whatever is in the buffers, are paid for by `total` characters. -/
def Paid (m : MStream) (pages : List Page) (total : ℕ) : Prop :=
  ∀ names, 1152 * pages.length + m.buffered names ≤ total

theorem paid_empty : Paid .empty [] 0 := by
  intro names
  simp only [MStream.buffered, List.length_nil, Nat.mul_zero, Nat.zero_add]
  exact (Finset.sum_eq_zero fun name _ => rfl).le

/-- What a change of one stream and of the pages costs. -/
theorem Paid.update {m : MStream} {pages pages' : List Page} {total n : ℕ} {name : Bytes}
    {s : Stream} {f : Pagefile} (h : Paid m pages total)
    (hcost : 1152 * pages'.length + s.ppos.toNat ≤ 1152 * pages.length +
      ((m.streams name).getD (.new minBuffersize)).ppos.toNat + n) :
    Paid ⟨Function.update m.streams name (some s), f⟩ pages' (total + n) := by
  intro names
  have hrest : (MStream.mk (Function.update m.streams name (some s)) f).buffered
      (names.erase name) = m.buffered (names.erase name) := by
    refine Finset.sum_congr rfl fun b hb => ?_
    simp only [Function.update_of_ne (Finset.ne_of_mem_erase hb)]
  have hsplit (m : MStream) : m.buffered (insert name (names.erase name)) =
      ((m.streams name).getD (.new minBuffersize)).ppos.toNat + m.buffered (names.erase name) :=
    Finset.sum_insert (Finset.notMem_erase name names)
  have hmono (m : MStream) : m.buffered names ≤ m.buffered (insert name (names.erase name)) :=
    Finset.sum_le_sum_of_subset (Finset.subset_insert_iff.mpr (Finset.Subset.refl _))
  have hbefore := h (insert name (names.erase name))
  have hafter := hmono ⟨Function.update m.streams name (some s), f⟩
  rw [hsplit] at hbefore hafter
  rw [hrest] at hafter
  simp only [Function.update_self, Option.getD_some] at hafter
  omega

/-- The characters that the writes of a run put. -/
def bytesWritten : List Op → ℕ
  | [] => 0
  | .write _ chunk :: ops => chunk.val.length + bytesWritten ops
  | .read _ :: ops => bytesWritten ops

section Runs
variable {o : ByteOrder} {uninit : Page} {m : MStream} {w : Bytes → Bytes} {pages : List Page}
  {cells : Bytes → List (ℕ × Page)} {total : ℕ}

/-- While the characters pay for fewer pages than there are numbers, a write succeeds. -/
theorem Inv.write_paid (uninit : Page) (h : Inv o m w pages cells) (hpaid : Paid m pages total)
    (name bs : Bytes) (hfew : total + bs.length < 1152 * (2 ^ 32 - 1)) :
    ∃ m' pages' cells', m.write o minBuffersize maxBuffersize uninit name bs = .ok m' ∧
      Inv o m' (Function.update w name (w name ++ bs)) pages' cells' ∧
      Paid m' pages' (total + bs.length) := by
  have hone := hpaid {name}
  rw [MStream.buffered, Finset.sum_singleton] at hone
  have hwrite (k : ℕ) := Stream.write_space uninit (bs.take k) h.file (h.stream name) (by
    rw [List.length_take]
    omega)
  have hstate (k : ℕ) {s' : Stream} {f' : Pagefile}
      (hw : ((m.streams name).getD (.new minBuffersize)).write o 1152 uninit m.pagefile
        (bs.take k) = .ok (s', f')) :
      m.write o minBuffersize maxBuffersize uninit name (bs.take k) =
        .ok ⟨Function.update m.streams name (some s'), f'⟩ := by
    rw [MStream.write, show maxBuffersize = 1152 from rfl, hw]
    rfl
  have hfits : ∀ k m',
      m.write o minBuffersize maxBuffersize uninit name (bs.take k) = .ok m' →
      m'.pagefile.pages < 2 ^ 32 - 1 := by
    intro k m' hk
    obtain ⟨s', f', pages', cells', hw, hf', -, -, hspace⟩ := hwrite k
    rw [hstate k hw] at hk
    cases hk
    rw [hf'.pages_eq]
    rw [List.length_take] at hspace
    omega
  obtain ⟨m', pages', cells', hm', hinv⟩ := h.write name bs hfits
  obtain ⟨s', f', pages₁, cells₁, hw, hf', -, -, hspace⟩ := hwrite bs.length
  rw [List.take_length] at hspace
  have hsame := hstate bs.length hw
  rw [List.take_length, hm'] at hsame
  cases hsame
  refine ⟨_, pages', cells', hm', hinv, hpaid.update ?_⟩
  have hlen : pages'.length = pages₁.length := by
    rw [← hinv.file.pages_eq, ← hf'.pages_eq]
  rw [hlen]
  exact hspace

/-- The states of a run have no more pages than the characters pay for. -/
theorem pages_reached {ops : List Op} (h : Inv o m w pages cells) (hpaid : Paid m pages total)
    (hfew : total + bytesWritten ops < 1152 * (2 ^ 32 - 1)) {m' : MStream}
    (hreach : m.Reaches o uninit ops m') :
    1152 * m'.pagefile.pages ≤ total + bytesWritten ops := by
  induction hreach generalizing w pages cells total with
  | here m ops =>
    have hnone := hpaid ∅
    rw [h.file.pages_eq]
    omega
  | @within m m' name chunk ops k hk =>
    simp only [bytesWritten] at hfew ⊢
    have hle : (chunk.val.take k).length ≤ chunk.val.length := List.length_take_le' _ _
    obtain ⟨m₁, pages₁, cells₁, hw, h₁, hpaid₁⟩ :=
      h.write_paid uninit hpaid name (chunk.val.take k) (by omega)
    rw [hk] at hw
    cases hw
    have hnone := hpaid₁ ∅
    rw [h₁.file.pages_eq]
    omega
  | @later m m₁ m₂ op ops out hstep hreach ih =>
    cases op with
    | write name chunk =>
      simp only [bytesWritten] at hfew ⊢
      obtain ⟨m₁', pages₁, cells₁, hw, h₁, hpaid₁⟩ :=
        h.write_paid uninit hpaid name chunk.val (by omega)
      simp only [MStream.step, hw, bind, Except.bind] at hstep
      cases hstep
      have := ih h₁ hpaid₁ (by omega)
      omega
    | read name =>
      simp only [bytesWritten] at hfew ⊢
      obtain ⟨m₁', hr, h₁, hrew⟩ := h.read name
      simp only [MStream.step, hr, bind, Except.bind] at hstep
      cases hstep
      refine ih h₁ (fun names => ?_) hfew
      have hstreams : m₁.streams = m.streams :=
        show m₁.rewind.streams = m.rewind.streams by rw [hrew]
      simpa only [MStream.buffered, hstreams] using hpaid names

theorem pages_le {ops : List Op} (hfew : bytesWritten ops < 1152 * (2 ^ 32 - 1))
    (hreach : MStream.Reaches o uninit .empty ops m) :
    1152 * m.pagefile.pages ≤ bytesWritten ops := by
  have hpaid := pages_reached (Inv.empty (o := o)) paid_empty (by omega) hreach
  omega

end Runs

/-- In every run with fewer than 2^32-1 pages each read returns all that was written to its name
before it, at its end so does one more read of any name, and the file position apart the run ends
in the state that its writes end in without the reads. -/
theorem reads_written (o : ByteOrder) (uninit : Page) (ops : List Op)
    (hfew : ∀ m, MStream.Reaches o uninit .empty ops m → m.pagefile.pages < 2 ^ 32 - 1) :
    ∃ m m₀, MStream.run o uninit .empty ops = .ok (reads (fun _ => []) ops, m) ∧
      (∀ name, ∃ m', m.read o name = .ok (written (fun _ => []) ops name, m') ∧
        m'.rewind = m.rewind) ∧
      MStream.run o uninit .empty (ops.filter Op.isWrite) = .ok ([], m₀) ∧
      m₀.rewind = m.rewind := by
  obtain ⟨m, m₀, pages, cells, hrun, hinv, hrun₀, hrew⟩ :=
    run_spec ops (Inv.empty (o := o)) hfew rfl
  refine ⟨m, m₀, hrun, fun name => ?_, hrun₀, hrew⟩
  obtain ⟨m', hr, -, hrew'⟩ := hinv.read name
  exact ⟨m', hr, hrew'⟩

/-- A chunk of equal characters. -/
def filled (n : ℕ) (ch : UInt8) (h : n < 2 ^ 32) : MStream.Chunk :=
  ⟨List.replicate n ch, List.length_replicate.trans_lt h⟩

/-- Two names with more characters than a buffer takes, one of them with more than a page takes, and
reads between the writes. -/
def twoNames : List Op :=
  [.write [0x61] (filled 9000 1 (by decide)), .write [0x62] (filled 1300 2 (by decide)),
    .read [0x61], .write [0x61] (filled 1200 3 (by decide)), .read [0x61], .read [0x62]]

theorem bytesWritten_twoNames : bytesWritten twoNames = 11500 := by
  simp only [twoNames, filled, bytesWritten, List.length_replicate]

theorem reads_twoNames : reads (fun _ => []) twoNames =
    [List.replicate 9000 1, List.replicate 9000 1 ++ List.replicate 1200 3,
      List.replicate 1300 2] := by
  have hab : ([0x62] : Bytes) ≠ [0x61] := by decide
  simp only [twoNames, filled, reads, Function.update_self, Function.update_of_ne hab,
    Function.update_of_ne hab.symm, List.nil_append]

theorem reads_written_twoNames :
    ∃ m m₀, MStream.run .little .blank .empty twoNames =
        .ok ([List.replicate 9000 1, List.replicate 9000 1 ++ List.replicate 1200 3,
          List.replicate 1300 2], m) ∧
      (∀ name, ∃ m', m.read .little name = .ok (written (fun _ => []) twoNames name, m') ∧
        m'.rewind = m.rewind) ∧
      MStream.run .little .blank .empty (twoNames.filter Op.isWrite) = .ok ([], m₀) ∧
      m₀.rewind = m.rewind := by
  rw [← reads_twoNames]
  refine reads_written .little .blank twoNames fun m hm => ?_
  have hle := pages_le (by rw [bytesWritten_twoNames]; decide) hm
  rw [bytesWritten_twoNames] at hle
  omega

/-- A run that puts fewer than 1152 characters for each number of a page never has more pages than
one for each 1152 characters, and each of its reads, or one more of any name behind it, returns all
that was written to the name. -/
theorem run_space (o : ByteOrder) (uninit : Page) (ops : List Op)
    (hfew : bytesWritten ops < 1152 * (2 ^ 32 - 1)) :
    (∀ m, MStream.Reaches o uninit .empty ops m → 1152 * m.pagefile.pages ≤ bytesWritten ops) ∧
      ∃ m, MStream.run o uninit .empty ops = .ok (reads (fun _ => []) ops, m) ∧
        ∀ name, ∃ m', m.read o name = .ok (written (fun _ => []) ops name, m') := by
  have hnumbers (m : MStream) (hm : MStream.Reaches o uninit .empty ops m) :
      m.pagefile.pages < 2 ^ 32 - 1 := by
    have hle := pages_le hfew hm
    omega
  obtain ⟨m, m₀, pages, cells, hrun, hinv, -, -⟩ :=
    run_spec ops (Inv.empty (o := o)) hnumbers rfl
  refine ⟨fun m hm => pages_le hfew hm, m, hrun, fun name => ?_⟩
  obtain ⟨m', hread, -, -⟩ := hinv.read name
  exact ⟨m', hread⟩

theorem run_space_twoNames :
    (∀ m, MStream.Reaches .little .blank .empty twoNames m → 1152 * m.pagefile.pages ≤ 11500) ∧
      ∃ m, MStream.run .little .blank .empty twoNames =
          .ok ([List.replicate 9000 1, List.replicate 9000 1 ++ List.replicate 1200 3,
            List.replicate 1300 2], m) ∧
        ∀ name, ∃ m', m.read .little name = .ok (written (fun _ => []) twoNames name, m') := by
  rw [← reads_twoNames, ← bytesWritten_twoNames]
  exact run_space .little .blank twoNames (by rw [bytesWritten_twoNames]; decide)

end Zim.Mstream
