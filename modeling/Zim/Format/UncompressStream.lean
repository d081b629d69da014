import Zim.Format.Cluster
import Zim.Lib.Decompressor

/-! `InflateStream`, `Bunzip2Stream` and `UnlzmaStream` (inflatestream.cpp, bunzip2stream.cpp,
unlzmastream.cpp) as `operator>>` reads a compressed cluster through them. -/
namespace Zim
open Cxx Compressor Fallible

/-- What the three stream buffers do differently. -/
structure UncompressLibrary where
  /-- The action of the call. `BZ2_bzDecompress` takes none. -/
  run : ℤ
  /-- The codes on which `checkError` does not throw. -/
  accepted : ℤ → Bool
  /-- How much of what is available is read at once, at most, into a buffer of some size. -/
  portion : ℤ → ℕ → ℕ

/-- `Z_SYNC_FLUSH`, `Z_OK` and `Z_STREAM_END`, and `std::min`. -/
def InflateStreamBuf.library : UncompressLibrary :=
  ⟨2, fun ret => ret = 0 || ret = 1, fun n size => min n.toNat size⟩

/-- `BZ_OK`, `BZ_RUN_OK`, `BZ_FLUSH_OK`, `BZ_FINISH_OK` and `BZ_STREAM_END`, and `mymin`, whose
result is a `bool`. -/
def Bunzip2StreamBuf.library : UncompressLibrary :=
  ⟨0, fun ret => ret = 0 || ret = 1 || ret = 2 || ret = 3 || ret = 4,
    fun n size => if min n.toNat size = 0 then 0 else 1⟩

/-- `LZMA_RUN`, `LZMA_OK` and `LZMA_STREAM_END`, and `std::min`. -/
def UnlzmaStreamBuf.library : UncompressLibrary :=
  ⟨0, fun ret => ret = 0 || ret = 1, fun n size => min n.toNat size⟩

inductive UncompressError (ε : Type) where
  /-- `InflateError`, `Bzip2UncompressError` or `UnlzmaError`. -/
  | library (ret : ℤ)
  /-- What the source has thrown. -/
  | source (err : ε)
  /-- `std::ios::failure`: the stream is set to throw on `failbit`. -/
  | failure
  /-- The turns given to a loop are used up. -/
  | turns

/-- A stream buffer with the library's state `stream`. What the library has not taken of `ibuffer`
is `next_in`, the characters from `gptr()` to `egptr()` are `avail`. -/
structure UncompressBuf (σ ς : Type) where
  stream : σ
  bufsize : ℕ
  next_in : Bytes
  avail : Bytes
  sinksource : ς

namespace UncompressBuf
variable {σ ς ε : Type}

def new (stream : σ) (bufsize : ℕ) (sinksource : ς) : UncompressBuf σ ς :=
  ⟨stream, bufsize, [], [], sinksource⟩

/-- `ibuffer_size()` and `obuffer_size()`. -/
def bufferSize (s : UncompressBuf σ ς) : ℕ := s.bufsize / 2

/-- The state with some bytes in `ibuffer` that were read from the source. -/
def refilled (s : UncompressBuf σ ς) (bs : Bytes) (sinksource : ς) : UncompressBuf σ ς :=
  { s with next_in := bs, sinksource }

section Calls
variable (lib : UncompressLibrary) (z : Compressor σ UInt8) (src : Source ε ς UInt8)

/-- `ibuffer` is filled where `avail_in` is 0. The first component is false where this ends
`underflow` with `eof`. -/
def fill (s : UncompressBuf σ ς) : Except (UncompressError ε) (Bool × UncompressBuf σ ς) :=
  if s.next_in = [] then
    if 0 < src.inAvail s.sinksource then
      match src.sgetn s.sinksource (lib.portion (src.inAvail s.sinksource) s.bufferSize) with
      | .error err => .error (.source err)
      | .ok (bs, sinksource) => .ok (true, s.refilled bs sinksource)
    else
      match src.sgetn s.sinksource s.bufferSize with
      | .error err => .error (.source err)
      | .ok (bs, sinksource) => .ok (bs ≠ [], s.refilled bs sinksource)
  else .ok (true, s)

/-- `underflow()`, whose loop ends once there is some text. The first component is false for
`eof`. -/
def underflow : ℕ → UncompressBuf σ ς → Except (UncompressError ε) (Bool × UncompressBuf σ ς)
  | 0, _ => .error .turns
  | turns + 1, s =>
    match s.fill lib src with
    | .error err => .error err
    | .ok (false, s) => .ok (false, s)
    | .ok (true, s) =>
      let r := z s.stream lib.run s.next_in s.bufferSize
      if !lib.accepted r.ret then .error (.library r.ret)
      else
        let s := { s with
          stream := r.state
          next_in := s.next_in.drop r.consumed
          avail := r.output }
        if s.avail = [] then underflow turns s else .ok (true, s)

/-- `sbumpc()` of the standard library. -/
def sbumpc (turns : ℕ) (s : UncompressBuf σ ς) :
    Except (UncompressError ε) (Option UInt8 × UncompressBuf σ ς) :=
  match s.avail with
  | ch :: rest => .ok (some ch, { s with avail := rest })
  | [] =>
    match underflow lib z src turns s with
    | .error err => .error err
    | .ok (false, s) => .ok (none, s)
    | .ok (true, s) => .ok (s.avail.head?, { s with avail := s.avail.tail })

/-- `sgetn(s, n)` of the standard library, which acts like repeated calls of `sbumpc()`. -/
def sgetn (turns : ℕ) :
    ℕ → UncompressBuf σ ς → Except (UncompressError ε) (Bytes × UncompressBuf σ ς)
  | 0, s => .ok ([], s)
  | n + 1, s =>
    match sbumpc lib z src turns s with
    | .error err => .error err
    | .ok (none, s) => .ok ([], s)
    | .ok (some ch, s) =>
      match sgetn turns n s with
      | .error err => .error err
      | .ok (bs, s) => .ok (ch :: bs, s)

/-- `in.read(buf, n)` of a stream that throws where it fails. -/
def read (turns : ℕ) (n : ℕ) (s : UncompressBuf σ ς) :
    Except (UncompressError ε) (Bytes × UncompressBuf σ ς) :=
  match sgetn lib z src turns n s with
  | .error err => .error err
  | .ok (bs, s) => if bs.length < n then .error .failure else .ok (bs, s)

end Calls

/-- The three streams. -/
inductive Kind where
  | inflateStream | bunzip2Stream | unlzmaStream
  deriving DecidableEq, Repr

def Kind.library : Kind → UncompressLibrary
  | inflateStream => InflateStreamBuf.library
  | bunzip2Stream => Bunzip2StreamBuf.library
  | unlzmaStream => UnlzmaStreamBuf.library

/-- Some of what is available is read into a buffer, and not more than fits. -/
theorem Kind.portion_bounds (kind : Kind) {n : ℤ} (hn : 0 < n) {size : ℕ} (hsize : 0 < size) :
    0 < kind.library.portion n size ∧ kind.library.portion n size ≤ min n.toNat size := by
  have hpos : 0 < n.toNat := by omega
  have hmin : 0 < min n.toNat size := lt_min hpos hsize
  cases kind with
  | inflateStream => exact ⟨hmin, le_rfl⟩
  | unlzmaStream => exact ⟨hmin, le_rfl⟩
  | bunzip2Stream =>
    simp only [library, Bunzip2StreamBuf.library, if_neg hmin.ne']
    exact ⟨one_pos, hmin⟩

section Decoding
variable {kind : Kind} {z : Compressor σ UInt8} {decoding : σ → Bytes → Bytes → Prop}
  {src : Source ε ς UInt8} {holds : ς → Bytes → Prop}

/-- The stream buffer is inside of a compressed stream: `packed` is left of it and `behind` lies
behind it, and the characters in the buffer and what the stream still stands for are `text`. -/
structure Decoding (decoding : σ → Bytes → Bytes → Prop) (holds : ς → Bytes → Prop)
    (s : UncompressBuf σ ς) (packed text behind : Bytes) : Prop where
  size : 0 < s.bufferSize
  stream : ∃ more, decoding s.stream packed more ∧ s.avail ++ more = text
  input : ∃ bs, holds s.sinksource bs ∧ s.next_in ++ bs = packed ++ behind

variable {s : UncompressBuf σ ς} {packed text behind : Bytes}

/-- Some of what comes next in the source is put into an empty buffer. -/
theorem Decoding.refill (hsrc : src.Serves holds)
    (h : Decoding decoding holds s packed text behind) (hnext : s.next_in = []) (n : ℕ) :
    ∃ sinksource, src.sgetn s.sinksource n = .ok ((packed ++ behind).take n, sinksource) ∧
      Decoding decoding holds (s.refilled ((packed ++ behind).take n) sinksource) packed text
        behind := by
  obtain ⟨bs, hbs, hinput⟩ := h.input
  rw [hnext, List.nil_append] at hinput
  subst hinput
  obtain ⟨sinksource, hget, hholds⟩ := hsrc.sgetn n hbs
  exact ⟨sinksource, hget, h.size, h.stream, _, hholds, List.take_append_drop _ _⟩

theorem take_ne_nil {bs : Bytes} (hsome : bs ≠ []) {n : ℕ} (hn : 0 < n) : bs.take n ≠ [] := by
  apply List.ne_nil_of_length_pos
  rw [List.length_take]
  exact lt_min hn (List.length_pos_of_ne_nil hsome)

/-- The buffer is filled with what comes next unless everything was read. -/
theorem Decoding.fill (kind : Kind) (hsrc : src.Serves holds)
    (h : Decoding decoding holds s packed text behind) (hsome : packed ++ behind ≠ []) :
    ∃ s', s.fill kind.library src = .ok (true, s') ∧ s'.next_in ≠ [] ∧ s'.avail = s.avail ∧
      Decoding decoding holds s' packed text behind := by
  by_cases hnext : s.next_in = []
  · by_cases havail : 0 < src.inAvail s.sinksource
    · obtain ⟨sinksource, hget, hdec⟩ := h.refill hsrc hnext
        (kind.library.portion (src.inAvail s.sinksource) s.bufferSize)
      have htake := take_ne_nil hsome (kind.portion_bounds havail h.size).1
      refine ⟨s.refilled _ sinksource, ?_, htake, rfl, hdec⟩
      simp only [UncompressBuf.fill, if_pos hnext, if_pos havail, hget]
    · obtain ⟨sinksource, hget, hdec⟩ := h.refill hsrc hnext s.bufferSize
      have htake := take_ne_nil hsome h.size
      refine ⟨s.refilled _ sinksource, ?_, htake, rfl, hdec⟩
      simp only [UncompressBuf.fill, if_pos hnext, if_neg havail, hget, ne_eq, htake,
        not_false_eq_true, decide_true]
  · exact ⟨s, by simp only [UncompressBuf.fill, if_neg hnext], hnext, rfl, h⟩

/-- Once everything was read the buffer cannot be filled. -/
theorem Decoding.fill_end (kind : Kind) (hsrc : src.Serves holds)
    (h : Decoding decoding holds s [] text []) :
    ∃ s', s.fill kind.library src = .ok (false, s') ∧ s'.avail = s.avail ∧
      Decoding decoding holds s' [] text [] := by
  obtain ⟨bs, hbs, hinput⟩ := h.input
  obtain ⟨hnext, rfl⟩ := List.append_eq_nil_iff.mp hinput
  have havail : ¬ 0 < src.inAvail s.sinksource := not_lt.mpr (hsrc.inAvail_le hbs)
  obtain ⟨sinksource, hget, hdec⟩ := h.refill hsrc hnext s.bufferSize
  refine ⟨s.refilled _ sinksource, ?_, rfl, hdec⟩
  simp only [UncompressBuf.fill, if_pos hnext, if_neg havail, hget, List.append_nil,
    List.take_nil, ne_eq, not_true_eq_false, decide_false]

/-- The state behind a call for what is in the buffer. -/
def called (s : UncompressBuf σ ς) (r : Result σ UInt8) : UncompressBuf σ ς :=
  ⟨r.state, s.bufsize, s.next_in.drop r.consumed, r.output, s.sinksource⟩

theorem Decoding.offered (h : Decoding decoding holds s packed text behind)
    (havail : s.avail = []) (hpacked : packed ≠ []) (hnext : s.next_in ≠ []) :
    Offered decoding s.stream packed text s.next_in := by
  obtain ⟨bs, -, hinput⟩ := h.input
  obtain ⟨more, hdec, htext⟩ := h.stream
  rw [havail, List.nil_append] at htext
  subst htext
  exact ⟨hdec, hpacked, hnext, behind, ⟨bs, hinput⟩⟩

/-- A call takes the front of what is left of the stream and gives the front of the text. -/
theorem Decoding.called (hz : Unpacks z kind.library.accepted kind.library.run decoding)
    (h : Decoding decoding holds s packed text behind) (havail : s.avail = [])
    (hpacked : packed ≠ []) (hnext : s.next_in ≠ []) :
    let r := z s.stream kind.library.run s.next_in s.bufferSize
    kind.library.accepted r.ret = true ∧
      Decoding decoding holds (s.called r) (packed.drop r.consumed) text behind := by
  have hoffer := h.offered havail hpacked hnext
  have hle := le_min_iff.mp (hz.consumed_le hoffer h.size)
  obtain ⟨bs, hbs, hinput⟩ := h.input
  refine ⟨hz.accepts hoffer h.size, h.size, ⟨_, hz.follows hoffer h.size, ?_⟩, bs, hbs, ?_⟩
  · exact List.prefix_iff_eq_append.mp (hz.output_initial hoffer h.size)
  · rw [UncompressBuf.called, ← List.drop_append_of_le_length hle.1, hinput,
      List.drop_append_of_le_length hle.2]

/-- What a turn of `underflow` does with something in the buffer. -/
theorem underflow_called {s s' : UncompressBuf σ ς} {lib : UncompressLibrary}
    (hfill : s.fill lib src = .ok (true, s'))
    (hok : lib.accepted (z s'.stream lib.run s'.next_in s'.bufferSize).ret = true) (turns : ℕ) :
    underflow lib z src (turns + 1) s =
      if (z s'.stream lib.run s'.next_in s'.bufferSize).output = [] then
        underflow lib z src turns (s'.called (z s'.stream lib.run s'.next_in s'.bufferSize))
      else .ok (true, s'.called (z s'.stream lib.run s'.next_in s'.bufferSize)) := by
  simp only [underflow, hfill, hok, Bool.not_true, Bool.false_eq_true, if_false, called]

/-- `underflow` comes to the next characters of the text. Where there are none it reports the end,
provided that nothing lies behind the stream. -/
theorem underflow_decoding (hz : Unpacks z kind.library.accepted kind.library.run decoding)
    (hsrc : src.Serves holds) (h : Decoding decoding holds s packed text behind)
    (havail : s.avail = []) (hend : text ≠ [] ∨ behind = []) :
    ∃ s' packed', Decoding decoding holds s' packed' text behind ∧
      (text ≠ [] → s'.avail ≠ []) ∧
      Settles (fun turns => underflow kind.library z src turns s) (decide (text ≠ []), s') := by
  induction hn : packed.length using Nat.strong_induction_on generalizing s packed with
  | _ n ih =>
  subst hn
  by_cases hpacked : packed = []
  · subst hpacked
    obtain ⟨more, hdec, htext⟩ := h.stream
    have hnone : text = [] := by rw [← htext, havail, hz.complete hdec, List.append_nil]
    obtain rfl := hend.resolve_left (not_not_intro hnone)
    obtain ⟨s', hfill, havail', hdec'⟩ := h.fill_end kind hsrc
    refine ⟨s', [], hdec', fun hsome => absurd hnone hsome,
      (settles_const ()).succ fun turns _ => ?_⟩
    simp only [underflow, hfill, hnone, ne_eq, not_true_eq_false, decide_false]
  · obtain ⟨s₁, hfill, hnext, havail₁, h₁⟩ := h.fill kind hsrc
      (List.append_ne_nil_of_left_ne_nil hpacked _)
    rw [havail] at havail₁
    have hadvances := hz.advances (h₁.offered havail₁ hpacked hnext) h₁.size
    generalize hst : s₁.stream = st, hin : s₁.next_in = input,
      hspace : s₁.bufferSize = space at hadvances
    -- the calls that take nothing and give nothing
    induction hadvances generalizing s s₁ with
    | @now st input hprogress =>
      subst hst hin hspace
      have hoffer := h₁.offered havail₁ hpacked hnext
      have htaken := le_min_iff.mp (hz.consumed_le hoffer h₁.size)
      obtain ⟨hok, hcalled⟩ := h₁.called hz havail₁ hpacked hnext
      by_cases hout : (z s₁.stream kind.library.run s₁.next_in s₁.bufferSize).output = []
      · have hpos := hprogress.resolve_right (not_not_intro hout)
        have hlen := List.length_pos_of_ne_nil hpacked
        obtain ⟨s', packed', hdec, hsome, hs'⟩ := ih _ (by rw [List.length_drop]; omega)
          hcalled hout rfl
        refine ⟨s', packed', hdec, hsome, hs'.succ fun turns hturns => ?_⟩
        rw [underflow_called hfill hok, if_pos hout]
        exact hturns
      · have htext : text ≠ [] := by
          rintro rfl
          exact hout (List.prefix_nil.mp (hz.output_initial hoffer h₁.size))
        refine ⟨_, _, hcalled, fun _ => hout, (settles_const ()).succ fun turns _ => ?_⟩
        rw [underflow_called hfill hok, if_neg hout, decide_eq_true htext]
    | @later st input hnone hsilent _ ih' =>
      subst hst hin hspace
      obtain ⟨hok, hcalled⟩ := h₁.called hz havail₁ hpacked hnext
      have hsame : (s₁.called (z s₁.stream kind.library.run s₁.next_in s₁.bufferSize)).next_in =
          s₁.next_in := by
        rw [UncompressBuf.called, hnone, List.drop_zero]
      rw [hnone, List.drop_zero] at hcalled
      have hfull : (s₁.called (z s₁.stream kind.library.run s₁.next_in s₁.bufferSize)).fill
          kind.library src = .ok (true, _) := if_neg (by rwa [hsame])
      obtain ⟨s', packed', hdec, hsome, hs'⟩ := ih' hcalled hsilent _ hfull (by rwa [hsame])
        hsilent hcalled rfl hsame rfl
      refine ⟨s', packed', hdec, hsome, hs'.succ fun turns hturns => ?_⟩
      rw [underflow_called hfill hok, if_pos hsilent]
      exact hturns

/-- A character from the buffer is the next one of the text. -/
theorem Decoding.bump (h : Decoding decoding holds s packed text behind) {ch : UInt8} {rest : Bytes}
    (havail : s.avail = ch :: rest) :
    text.head? = some ch ∧ Decoding decoding holds { s with avail := rest } packed text.tail
      behind := by
  obtain ⟨more, hdec, htext⟩ := h.stream
  rw [havail] at htext
  subst htext
  exact ⟨rfl, h.size, ⟨more, hdec, rfl⟩, h.input⟩

theorem sbumpc_decoding (hz : Unpacks z kind.library.accepted kind.library.run decoding)
    (hsrc : src.Serves holds) (h : Decoding decoding holds s packed text behind)
    (hend : text ≠ [] ∨ behind = []) :
    ∃ s' packed', Decoding decoding holds s' packed' text.tail behind ∧
      Settles (fun turns => sbumpc kind.library z src turns s) (text.head?, s') := by
  cases havail : s.avail with
  | cons ch rest =>
    obtain ⟨hhead, hdec⟩ := h.bump havail
    refine ⟨_, packed, hdec, 0, fun turns _ => ?_⟩
    simp only [sbumpc, havail, hhead]
  | nil =>
    obtain ⟨s₁, packed', hdec, hsome, m, hm⟩ := underflow_decoding hz hsrc h havail hend
    by_cases htext : text = []
    · subst htext
      refine ⟨s₁, packed', hdec, m, fun turns hturns => ?_⟩
      simp only [sbumpc, havail, hm turns hturns, ne_eq, not_true_eq_false, decide_false,
        List.head?_nil]
    · obtain ⟨ch, rest, havail₁⟩ := List.exists_cons_of_ne_nil (hsome htext)
      obtain ⟨hhead, hdec₁⟩ := hdec.bump havail₁
      refine ⟨_, packed', hdec₁, m, fun turns hturns => ?_⟩
      simp only [sbumpc, havail, hm turns hturns, ne_eq, htext, not_false_eq_true, decide_true,
        havail₁, List.head?_cons, List.tail_cons, hhead]

/-- Reading delivers the next characters of the text, and fewer than asked for at its end only. -/
theorem sgetn_decoding (hz : Unpacks z kind.library.accepted kind.library.run decoding)
    (hsrc : src.Serves holds) (n : ℕ) (h : Decoding decoding holds s packed text behind)
    (hend : n ≤ text.length ∨ behind = []) :
    ∃ s' packed', Decoding decoding holds s' packed' (text.drop n) behind ∧
      Settles (fun turns => sgetn kind.library z src turns n s) (text.take n, s') := by
  induction n generalizing s packed text with
  | zero => exact ⟨s, packed, h, settles_const _⟩
  | succ n ih =>
    have hsome : text ≠ [] ∨ behind = [] := hend.imp_left fun hle =>
      List.ne_nil_of_length_pos (by omega)
    obtain ⟨s₁, packed₁, h₁, m₁, hm₁⟩ := sbumpc_decoding hz hsrc h hsome
    cases text with
    | nil =>
      refine ⟨s₁, packed₁, h₁, m₁, fun turns hturns => ?_⟩
      simp only [sgetn, hm₁ turns hturns, List.head?_nil, List.take_nil]
    | cons ch text =>
      obtain ⟨s₂, packed₂, h₂, m₂, hm₂⟩ := ih h₁ (hend.imp_left Nat.le_of_succ_le_succ)
      refine ⟨s₂, packed₂, h₂, max m₁ m₂, fun turns hturns => ?_⟩
      simp only [sgetn, hm₁ turns (le_of_max_le_left hturns), List.head?_cons,
        hm₂ turns (le_of_max_le_right hturns), List.tail_cons, List.take_succ_cons]

/-- A read of a stream that throws where it fails. -/
theorem read_decoding (hz : Unpacks z kind.library.accepted kind.library.run decoding)
    (hsrc : src.Serves holds) {n : ℕ} (h : Decoding decoding holds s packed text behind)
    (hn : n ≤ text.length) :
    ∃ s' packed', Decoding decoding holds s' packed' (text.drop n) behind ∧
      Settles (fun turns => read kind.library z src turns n s) (text.take n, s') := by
  obtain ⟨s', packed', hdec, m, hm⟩ := sgetn_decoding hz hsrc n h (.inl hn)
  refine ⟨s', packed', hdec, m, fun turns hturns => ?_⟩
  have hfull : ¬ (text.take n).length < n := by
    rw [List.length_take_of_le hn]
    exact lt_irrefl n
  simp only [read, hm turns hturns, if_neg hfull]

end Decoding
end UncompressBuf
end Zim
