import Zim.Format.StoredBlocks
import Zim.Lib.Fallible

/-! `DeflateStream`, `Bzip2Stream` and `LzmaStream` (deflatestream.cpp, bzip2stream.cpp,
lzmastream.cpp) over the libraries that they call. -/
namespace Zim
open Cxx Compressor Fallible

/-- The codes in which the three stream buffers differ. -/
structure Library where
  /-- The action of `overflow`. -/
  run : ℤ
  /-- The action of `end`. -/
  finish : ℤ
  streamEnd : ℤ
  /-- The codes on which `checkError` does not throw. -/
  accepted : ℤ → Bool

/-- `Z_NO_FLUSH`, `Z_FINISH`, `Z_STREAM_END` and `Z_OK`. -/
def DeflateStreamBuf.library : Library := ⟨0, 4, 1, fun ret => ret = 0 || ret = 1⟩

/-- `BZ_RUN`, `BZ_FINISH`, `BZ_STREAM_END`, and besides `BZ_OK`, `BZ_RUN_OK`, `BZ_FLUSH_OK` and
`BZ_FINISH_OK`. -/
def Bzip2StreamBuf.library : Library :=
  ⟨0, 2, 4, fun ret => ret = 0 || ret = 1 || ret = 2 || ret = 3 || ret = 4⟩

/-- `LZMA_RUN`, `LZMA_FINISH`, `LZMA_STREAM_END` and `LZMA_OK`. -/
def LzmaStreamBuf.library : Library := ⟨0, 3, 1, fun ret => ret = 0 || ret = 1⟩

inductive StreamError where
  /-- `DeflateError`, `Bzip2CompressError` or `LzmaError` with a code of the library. -/
  | library (ret : ℤ)
  /-- The same with `failed to send compressed data to sink`. -/
  | sendFailed
  /-- `std::ios::failure`: the stream is set to throw on `badbit`. -/
  | badbit
  /-- The turns given to a loop are used up. -/
  | turns
  deriving DecidableEq, Repr

/-- A stream buffer with the library's state `stream`. The characters up to `pptr()` are `obuffer`,
and `sink` is what the sink has received. -/
structure StreamBuf (σ : Type) where
  stream : σ
  bufsize : ℕ
  obuffer : Bytes
  sink : Bytes

namespace StreamBuf
variable {σ : Type}

/-- `sizeof(zbuffer)`. -/
def zbufferSize : ℕ := 8192

def new (stream : σ) (bufsize : ℕ) : StreamBuf σ := ⟨stream, bufsize, [], []⟩

section Calls
variable (lib : Library) (z : Compressor σ UInt8) (sputn : Bytes → Bytes → ℕ)

/-- The output of a call is given to the sink, which has received some bytes before and returns how
many it takes. The first component tells that it takes them all. -/
def send (s : StreamBuf σ) (r : Result σ UInt8) : Bool × StreamBuf σ :=
  let n := sputn s.sink r.output
  (!(n < r.output.length), { s with stream := r.state, sink := s.sink ++ r.output.take n })

/-- `sputc(ch)` over what `overflow` does. -/
def sputcOr (overflow : StreamBuf σ → Option UInt8 → Except StreamError (Bool × StreamBuf σ))
    (s : StreamBuf σ) (ch : UInt8) : Except StreamError (Bool × StreamBuf σ) :=
  if s.obuffer.length < s.bufsize then .ok (true, { s with obuffer := s.obuffer ++ [ch] })
  else overflow s (some ch)

/-- `overflow(c)`, with no character for `eof`. The first component is false where it returns
`eof`; what the `sputc` in it returns is not used. -/
def overflow : ℕ → StreamBuf σ → Option UInt8 → Except StreamError (Bool × StreamBuf σ)
  | 0, _, _ => .error .turns
  | turns + 1, s, c =>
    let r := z s.stream lib.run s.obuffer zbufferSize
    if !lib.accepted r.ret then .error (.library r.ret)
    else
      let (all, sent) := s.send sputn r
      if !all then .ok (false, sent)
      else
        let s := { sent with obuffer := s.obuffer.drop r.consumed }
        match c with
        | none => .ok (true, s)
        | some ch =>
          match sputcOr (overflow turns) s ch with
          | .error err => .error err
          | .ok (_, s) => .ok (true, s)

def sputc (turns : ℕ) : StreamBuf σ → UInt8 → Except StreamError (Bool × StreamBuf σ) :=
  sputcOr (overflow lib z sputn turns)

/-- `write` of the stream: the characters go to the buffer up to one that it does not take. -/
def write (turns : ℕ) : StreamBuf σ → Bytes → Except StreamError (StreamBuf σ)
  | s, [] => .ok s
  | s, ch :: chs =>
    match sputc lib z sputn turns s ch with
    | .error err => .error err
    | .ok (false, _) => .error .badbit
    | .ok (true, s) => write turns s chs

/-- The loop of `end()` with what is left of the input. -/
def endLoop : ℕ → Bytes → StreamBuf σ → Except StreamError (StreamBuf σ)
  | 0, _, _ => .error .turns
  | turns + 1, next_in, s =>
    let r := z s.stream lib.finish next_in zbufferSize
    if !lib.accepted r.ret then .error (.library r.ret)
    else
      let (all, s) := s.send sputn r
      if !all then .error .sendFailed
      else if r.ret = lib.streamEnd then .ok { s with obuffer := [] }
      else endLoop turns (next_in.drop r.consumed) s

/-- `end()` of the stream. -/
def finish (turns : ℕ) (s : StreamBuf σ) : Except StreamError (StreamBuf σ) :=
  endLoop lib z sputn turns s.obuffer s

/-- Some writes to a stream and the end of it. -/
def writeAll (turns : ℕ) (s : StreamBuf σ) (writes : List Bytes) :
    Except StreamError (StreamBuf σ) :=
  writes.foldlM (write lib z sputn turns) s

def compress (turns : ℕ) (s : StreamBuf σ) (writes : List Bytes) :
    Except StreamError (StreamBuf σ) :=
  writeAll lib z sputn turns s writes >>= finish lib z sputn turns

end Calls

/-- A sink that takes everything. -/
def takesAll : Bytes → Bytes → ℕ := fun _ bs => bs.length

end StreamBuf

/-- The streams. -/
inductive CompressStream where
  | deflateStream | bzip2Stream | lzmaStream
  deriving DecidableEq, Repr

def CompressStream.library : CompressStream → Library
  | deflateStream => DeflateStreamBuf.library
  | bzip2Stream => Bzip2StreamBuf.library
  | lzmaStream => LzmaStreamBuf.library

theorem CompressStream.accepted_streamEnd (kind : CompressStream) :
    kind.library.accepted kind.library.streamEnd = true := by
  cases kind <;> rfl

/-- What is assumed of the library behind a stream. -/
abbrev Library.Lawful {σ : Type} (lib : Library) (z : Compressor σ UInt8)
    (running : σ → Prop) : Prop :=
  Compressor.Lawful z lib.accepted StreamBuf.zbufferSize lib.run lib.finish lib.streamEnd running

namespace StreamBuf

section Feed
variable {σ : Type} {lib : Library} {z : Compressor σ UInt8} {running : σ → Prop}

/-- What was written is what the compressor took and the characters that are still in the buffer,
and the sink has the output. -/
structure Fed (running : σ → Prop) (s : StreamBuf (σ × List (Call UInt8))) (written : Bytes) :
    Prop where
  running : running s.stream.1
  written : taken s.stream.2 ++ s.obuffer = written
  sent : s.sink = given s.stream.2
  bufsize_pos : 0 < s.bufsize
  inside : s.obuffer.length ≤ s.bufsize

theorem fed_new (init : σ) (hinit : running init) {bufsize : ℕ} (hsize : 0 < bufsize) :
    Fed running (new (init, []) bufsize) [] :=
  ⟨hinit, rfl, rfl, hsize, hsize.le⟩

theorem send_takesAll (s : StreamBuf σ) (r : Result σ UInt8) :
    s.send takesAll r = (true, { s with stream := r.state, sink := s.sink ++ r.output }) := by
  simp [send, takesAll]

/-- The state behind a call for the characters in the buffer. -/
def called (s : StreamBuf σ) (r : Result σ UInt8) : StreamBuf σ :=
  ⟨r.state, s.bufsize, s.obuffer.drop r.consumed, s.sink ++ r.output⟩

variable {s : StreamBuf (σ × List (Call UInt8))} {written : Bytes}

theorem Fed.called (hz : lib.Lawful z running) (hs : Fed running s written)
    (hsome : s.obuffer ≠ []) :
    Fed running (s.called (z.logged s.stream lib.run s.obuffer zbufferSize)) written where
  running := hz.run_running _ _ hs.running hsome
  written := (taken_logged s.stream lib.run s.obuffer zbufferSize).trans hs.written
  sent := by
    rw [StreamBuf.called, given_logged, hs.sent]
  bufsize_pos := hs.bufsize_pos
  inside := by
    rw [StreamBuf.called, List.length_drop]
    exact (Nat.sub_le _ _).trans hs.inside

theorem Fed.store (hs : Fed running s written) (hroom : s.obuffer.length < s.bufsize)
    (ch : UInt8) : Fed running { s with obuffer := s.obuffer ++ [ch] } (written ++ [ch]) where
  running := hs.running
  written := by rw [← hs.written, List.append_assoc]
  sent := hs.sent
  bufsize_pos := hs.bufsize_pos
  inside := by
    rw [List.length_append]
    exact hroom

theorem overflow_called (hz : lib.Lawful z running) (hs : Fed running s written)
    (hsome : s.obuffer ≠ []) (turns : ℕ) (ch : UInt8) :
    overflow lib z.logged takesAll (turns + 1) s (some ch) =
      match sputcOr (overflow lib z.logged takesAll turns)
        (s.called (z.logged s.stream lib.run s.obuffer zbufferSize)) ch with
      | .error err => .error err
      | .ok (_, s) => .ok (true, s) := by
  have hok : lib.accepted (z.logged s.stream lib.run s.obuffer zbufferSize).ret = true :=
    hz.run_accepted _ _ hs.running hsome
  simp only [overflow, hok, send_takesAll, called, Bool.not_true, Bool.false_eq_true, if_false]
  generalize sputcOr (overflow lib z.logged takesAll turns) _ ch = r
  cases r <;> rfl

/-- In a full buffer the character is stored once the compressor has taken some of it. -/
theorem overflow_fed (hz : lib.Lawful z running) (hs : Fed running s written)
    (hfull : s.obuffer.length = s.bufsize) (ch : UInt8) :
    ∃ s', Fed running s' (written ++ [ch]) ∧
      Settles (fun turns => overflow lib z.logged takesAll turns s (some ch)) (true, s') := by
  have hsome {s : StreamBuf (σ × List (Call UInt8))} (hs : Fed running s written)
      (hfull : s.obuffer.length = s.bufsize) : s.obuffer ≠ [] :=
    List.ne_nil_of_length_pos (hfull ▸ hs.bufsize_pos)
  have hprogress := hz.progresses _ _ hs.running (hsome hs hfull)
  generalize hst : s.stream.1 = st, hin : s.obuffer = input at hprogress
  induction hprogress generalizing s with
  | now h =>
    subst hst hin
    have hcalled := hs.called hz (hsome hs hfull)
    have hroom : (s.called (z.logged s.stream lib.run s.obuffer zbufferSize)).obuffer.length <
        (s.called (z.logged s.stream lib.run s.obuffer zbufferSize)).bufsize := by
      have hpos := hs.bufsize_pos
      have htaken : 0 < (z.logged s.stream lib.run s.obuffer zbufferSize).consumed := h
      simp only [StreamBuf.called, List.length_drop]
      omega
    refine ⟨_, hcalled.store hroom ch, (settles_const ()).succ fun turns _ => ?_⟩
    rw [overflow_called hz hs (hsome hs hfull), sputcOr, if_pos hroom]
  | later hnone _ ih =>
    subst hst hin
    have hcalled := hs.called hz (hsome hs hfull)
    have hsame : (s.called (z.logged s.stream lib.run s.obuffer zbufferSize)).obuffer =
        s.obuffer := by
      have hzero : (z.logged s.stream lib.run s.obuffer zbufferSize).consumed = 0 := hnone
      rw [StreamBuf.called, hzero, List.drop_zero]
    have hroom : ¬ (s.called (z.logged s.stream lib.run s.obuffer zbufferSize)).obuffer.length <
        (s.called (z.logged s.stream lib.run s.obuffer zbufferSize)).bufsize := by
      rw [hsame, hfull]
      exact lt_irrefl _
    obtain ⟨s', hfed, hs'⟩ := ih hcalled (by rw [hsame]; exact hfull) rfl hsame
    refine ⟨s', hfed, hs'.succ fun turns hturns => ?_⟩
    rw [overflow_called hz hs (hsome hs hfull), sputcOr, if_neg hroom, hturns]

theorem sputc_fed (hz : lib.Lawful z running) (hs : Fed running s written) (ch : UInt8) :
    ∃ s', Fed running s' (written ++ [ch]) ∧
      Settles (fun turns => sputc lib z.logged takesAll turns s ch) (true, s') := by
  simp only [sputc, sputcOr]
  by_cases hroom : s.obuffer.length < s.bufsize
  · simp only [if_pos hroom]
    exact ⟨_, hs.store hroom ch, settles_const _⟩
  · simp only [if_neg hroom]
    exact overflow_fed hz hs (le_antisymm hs.inside (not_lt.mp hroom)) ch

theorem write_fed (hz : lib.Lawful z running) (hs : Fed running s written) (chs : Bytes) :
    ∃ s', Fed running s' (written ++ chs) ∧
      Settles (fun turns => write lib z.logged takesAll turns s chs) s' := by
  induction chs generalizing s written with
  | nil =>
    simp only [write, List.append_nil]
    exact ⟨s, hs, settles_const s⟩
  | cons ch chs ih =>
    obtain ⟨s₁, hfed₁, hs₁⟩ := sputc_fed hz hs ch
    obtain ⟨s₂, hfed₂, hs₂⟩ := ih hfed₁
    obtain ⟨m, hm⟩ := hs₁.and hs₂
    refine ⟨s₂, by rwa [List.append_cons], m, fun turns hturns => ?_⟩
    obtain ⟨hput, hwrite⟩ := hm turns hturns
    simp only [write, hput]
    exact hwrite

theorem writeAll_fed (hz : lib.Lawful z running) (hs : Fed running s written)
    (writes : List Bytes) :
    ∃ s', Fed running s' (written ++ writes.flatten) ∧
      Settles (fun turns => writeAll lib z.logged takesAll turns s writes) s' := by
  induction writes generalizing s written with
  | nil =>
    simp only [writeAll, List.foldlM_nil, List.flatten_nil, List.append_nil]
    exact ⟨s, hs, settles_const s⟩
  | cons chs writes ih =>
    obtain ⟨s₁, hfed₁, hs₁⟩ := write_fed hz hs chs
    obtain ⟨s₂, hfed₂, hs₂⟩ := ih hfed₁
    simp only [writeAll, List.foldlM_cons, List.flatten_cons, ← List.append_assoc]
    exact ⟨s₂, hfed₂, hs₁.bind hs₂⟩

/-- What the streams are for: all that was written was taken by the compressor, and all of the
output is in the sink. -/
def Delivered (s : StreamBuf (σ × List (Call UInt8))) (written : Bytes) : Prop :=
  taken s.stream.2 = written ∧ s.sink = given s.stream.2

/-- The loop of `end` goes on until the compressor has taken everything. -/
theorem endLoop_delivered (hstop : lib.accepted lib.streamEnd = true) {input : Bytes}
    (hfinish : Finishes z lib.accepted lib.finish zbufferSize lib.streamEnd s.stream.1 input)
    (hwritten : taken s.stream.2 ++ input = written) (hsent : s.sink = given s.stream.2) :
    ∃ s', Delivered s' written ∧
      Settles (fun turns => endLoop lib z.logged takesAll turns input s) s' := by
  generalize hst : s.stream.1 = st at hfinish
  induction hfinish generalizing s with
  | @last _ input hret hall =>
    subst hst
    have hstep : (z.logged s.stream lib.finish input zbufferSize).ret = lib.streamEnd := hret
    have htaken := taken_logged (z := z) s.stream lib.finish input zbufferSize
    have hgiven := given_logged (z := z) s.stream lib.finish input zbufferSize
    have hdrop : input.drop (z.logged s.stream lib.finish input zbufferSize).consumed = [] :=
      List.drop_eq_nil_of_le hall.ge
    rw [hdrop, List.append_nil, hwritten] at htaken
    refine ⟨{ s with
      stream := (z.logged s.stream lib.finish input zbufferSize).state
      obuffer := []
      sink := s.sink ++ (z.logged s.stream lib.finish input zbufferSize).output },
      ⟨htaken, by rw [hgiven, ← hsent]⟩, (settles_const ()).succ fun turns _ => ?_⟩
    simp only [endLoop, send_takesAll, hstep, hstop, Bool.not_true, Bool.false_eq_true, if_false,
      if_true]
  | @more _ input hret hok _ ih =>
    subst hst
    have hstep : (z.logged s.stream lib.finish input zbufferSize).ret ≠ lib.streamEnd := hret
    have haccept : lib.accepted (z.logged s.stream lib.finish input zbufferSize).ret = true := hok
    have htaken := taken_logged (z := z) s.stream lib.finish input zbufferSize
    have hgiven := given_logged (z := z) s.stream lib.finish input zbufferSize
    obtain ⟨s', hdelivered, hs'⟩ := @ih
      { s with
        stream := (z.logged s.stream lib.finish input zbufferSize).state
        sink := s.sink ++ (z.logged s.stream lib.finish input zbufferSize).output }
      (htaken.trans hwritten) (by rw [hgiven, hsent]) rfl
    refine ⟨s', hdelivered, hs'.succ fun turns hturns => ?_⟩
    simp only [endLoop, send_takesAll, haccept, if_neg hstep, Bool.not_true, Bool.false_eq_true,
      if_false]
    exact hturns

end Feed

/-- Whatever a lawful compressor takes of the input that it is offered, a stream gives it all that
was written, and gives the sink all of the output. -/
theorem compress_delivered {σ : Type} (kind : CompressStream) (z : Compressor σ UInt8)
    (running : σ → Prop) (hz : kind.library.Lawful z running) (init : σ) (hinit : running init)
    (bufsize : ℕ) (hsize : 0 < bufsize) (writes : List Bytes) :
    ∃ s, Delivered s writes.flatten ∧
      Settles (fun turns => compress kind.library z.logged takesAll turns
        (new (init, []) bufsize) writes) s := by
  obtain ⟨s₁, hfed, hs₁⟩ := writeAll_fed hz (fed_new init hinit hsize) writes
  obtain ⟨s₂, hdelivered, hs₂⟩ := endLoop_delivered kind.accepted_streamEnd
    (hz.finishes _ _ hfed.running) hfed.written hfed.sent
  exact ⟨s₂, hdelivered, hs₁.bind hs₂⟩

/-- Writes of 30 bytes and of 2 more, with a buffer of 8. -/
theorem compress_delivered_thirty :
    ∃ s, Delivered s [StoredBlocks.thirty, [1, 2]].flatten ∧
      Settles (fun turns => compress DeflateStreamBuf.library StoredBlocks.deflate.logged takesAll
        turns (new (StoredBlocks.init, []) 8) [StoredBlocks.thirty, [1, 2]]) s :=
  compress_delivered .deflateStream StoredBlocks.deflate (fun s => s.finished = false)
    (StoredBlocks.deflate_lawful (by decide) rfl rfl) StoredBlocks.init rfl 8 (by decide)
    [StoredBlocks.thirty, [1, 2]]

end StreamBuf

end Zim
