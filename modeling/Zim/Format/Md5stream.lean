import Zim.Format.Md5

/-! `Md5stream` (md5stream.h, md5stream.cpp), which can be used for one message after another. -/
namespace Zim
open Cxx Md5

/-- The characters from `pbase()` to `pptr()`, or nothing where these are null. -/
structure Md5streambuf where
  buffer : Option Bytes
  context : Context
  digest : Bytes
  deriving DecidableEq, Repr

namespace Md5streambuf

/-- The constructor, which leaves the context as it finds it. -/
def new (context : Context) : Md5streambuf := ⟨none, context, List.replicate 16 0⟩

/-- `bufsize`. -/
def bufsize : ℕ := 64

/-- `overflow(ch)`, with no character for `eof`. -/
def overflow (s : Md5streambuf) (ch : Option UInt8) : Md5streambuf :=
  let context := match s.buffer with
    | none => s.context.init
    | some bs => s.context.update bs
  { s with context, buffer := some ch.toList }

/-- `sputc(ch)` of the standard library. -/
def sputc (s : Md5streambuf) (ch : UInt8) : Md5streambuf :=
  match s.buffer with
  | none => s.overflow (some ch)
  | some bs =>
    if bs.length < bufsize then { s with buffer := some (bs ++ [ch]) } else s.overflow (some ch)

/-- `sputn(s, n)` of the standard library, which acts like repeated calls of `sputc`. -/
def sputn (s : Md5streambuf) (bs : Bytes) : Md5streambuf := bs.foldl sputc s

def sync (s : Md5streambuf) : Md5streambuf :=
  match s.buffer with
  | none => s
  | some bs => if bs = [] then s else { s with context := s.context.update bs, buffer := some [] }

def getDigest (s : Md5streambuf) : Bytes × Md5streambuf :=
  match s.buffer with
  | none => (s.digest, s)
  | some bs =>
    let context := if bs = [] then s.context else s.context.update bs
    let (digest, context) := context.final
    (digest, ⟨none, context, digest⟩)

/-- What a program does with a stream. -/
inductive Op where
  | write (bs : Bytes)
  | flush
  | getDigest
  deriving DecidableEq, Repr

/-- The digests that the program is given. -/
def run (s : Md5streambuf) : List Op → List Bytes
  | [] => []
  | .write bs :: ops => (s.sputn bs).run ops
  | .flush :: ops => s.sync.run ops
  | .getDigest :: ops => s.getDigest.1 :: s.getDigest.2.run ops

/-- What the stream is for: every digest is that of the message since the one before, but without a
character in between it is the same one again. -/
def digests (msg last : Bytes) : List Op → List Bytes
  | [] => []
  | .write bs :: ops => digests (msg ++ bs) last ops
  | .flush :: ops => digests msg last ops
  | .getDigest :: ops =>
    let next := if msg = [] then last else Md5.digest msg
    next :: digests [] next ops

/-- The stream has taken a message, whose end is in the buffer. -/
structure Holds (s : Md5streambuf) (msg last : Bytes) : Prop where
  size : s.context.buffer.length = 64
  last : s.digest = last
  fresh : s.buffer = none → msg = []
  message : ∀ bs, s.buffer = some bs →
    bs.length ≤ 64 ∧ msg ≠ [] ∧ ∃ front, s.context.Holds front ∧ msg = front ++ bs

variable {s : Md5streambuf} {msg last : Bytes}

theorem holds_new {context : Context} (hsize : context.buffer.length = 64) :
    (new context).Holds [] (List.replicate 16 0) :=
  ⟨hsize, rfl, fun _ => rfl, nofun⟩

/-- The context with a piece that is not longer than the buffer. -/
theorem holds_update {c : Context} {front bs : Bytes} (h : c.Holds front) (hlen : bs.length ≤ 64) :
    (c.update bs).Holds (front ++ bs) := h.update (by omega)

theorem Holds.sputc (h : s.Holds msg last) (ch : UInt8) :
    (s.sputc ch).Holds (msg ++ [ch]) last := by
  have hsome : msg ++ [ch] ≠ [] := by simp
  rw [Md5streambuf.sputc]
  cases hbuffer : s.buffer with
  | none =>
    obtain rfl := h.fresh hbuffer
    have hinit := Context.init_holds h.size
    simp only [overflow, hbuffer]
    refine ⟨hinit.size, h.last, nofun, ?_⟩
    rintro bs ⟨⟩
    exact ⟨by simp, hsome, [], hinit, rfl⟩
  | some bs =>
    obtain ⟨hlen, -, front, hfront, rfl⟩ := h.message bs hbuffer
    dsimp only
    split_ifs with hroom
    · refine ⟨h.size, h.last, nofun, ?_⟩
      rintro _ ⟨⟩
      refine ⟨?_, hsome, front, hfront, List.append_assoc _ _ _⟩
      rw [List.length_append]
      exact hroom
    · have hupdate := holds_update hfront hlen
      simp only [overflow, hbuffer]
      refine ⟨hupdate.size, h.last, nofun, ?_⟩
      rintro _ ⟨⟩
      exact ⟨by simp, hsome, _, hupdate, rfl⟩

theorem Holds.sputn (h : s.Holds msg last) (bs : Bytes) :
    (s.sputn bs).Holds (msg ++ bs) last := by
  induction bs generalizing s msg with
  | nil => simpa [Md5streambuf.sputn] using h
  | cons ch bs ih =>
    rw [List.append_cons]
    exact ih (h.sputc ch)

theorem Holds.sync (h : s.Holds msg last) : s.sync.Holds msg last := by
  rw [Md5streambuf.sync]
  cases hbuffer : s.buffer with
  | none => exact h
  | some bs =>
    dsimp only
    split_ifs with hnone
    · exact h
    · obtain ⟨hlen, hsome, front, hfront, rfl⟩ := h.message bs hbuffer
      have hupdate := holds_update hfront hlen
      refine ⟨hupdate.size, h.last, nofun, ?_⟩
      rintro _ ⟨⟩
      exact ⟨by decide, hsome, _, hupdate, (List.append_nil _).symm⟩

theorem Holds.getDigest (h : s.Holds msg last) :
    s.getDigest.1 = (if msg = [] then last else Md5.digest msg) ∧
      s.getDigest.2.Holds [] (if msg = [] then last else Md5.digest msg) := by
  rw [Md5streambuf.getDigest]
  cases hbuffer : s.buffer with
  | none =>
    obtain rfl := h.fresh hbuffer
    exact ⟨h.last, h.size, h.last, fun _ => rfl, fun bs hbs => by rw [hbuffer] at hbs; cases hbs⟩
  | some bs =>
    obtain ⟨hlen, hsome, front, hfront, rfl⟩ := h.message bs hbuffer
    have hwhole : (if bs = [] then s.context else s.context.update bs).Holds (front ++ bs) := by
      split_ifs with hnone
      · rwa [hnone, List.append_nil]
      · exact holds_update hfront hlen
    dsimp only
    rw [if_neg hsome]
    exact ⟨hwhole.final_digest, List.length_replicate, hwhole.final_digest, fun _ => rfl, nofun⟩

theorem run_eq_digests (h : s.Holds msg last) (ops : List Op) :
    s.run ops = digests msg last ops := by
  induction ops generalizing s msg last with
  | nil => rfl
  | cons op ops ih =>
    cases op with
    | write bs => exact ih (h.sputn bs)
    | flush => exact ih h.sync
    | getDigest =>
      obtain ⟨hdigest, hnext⟩ := h.getDigest
      rw [run, digests, hdigest, ih hnext]

/-- Every run of writes, flushes and digests gives the digests of the messages in between. The
digest of nothing is the one before, and at first sixteen zeros. -/
theorem run_new (context : Context) (hsize : context.buffer.length = 64) (ops : List Op) :
    (new context).run ops = digests [] (List.replicate 16 0) ops :=
  run_eq_digests (holds_new hsize) ops

theorem run_new_abc : (new ⟨⟨1, 2, 3, 4⟩, 5, 6, List.replicate 64 7⟩).run
      [.getDigest, .write [0x61], .flush, .write [0x62, 0x63], .getDigest, .flush, .getDigest] =
    digests [] (List.replicate 16 0)
      [.getDigest, .write [0x61], .flush, .write [0x62, 0x63], .getDigest, .flush, .getDigest] :=
  run_new _ (by decide) _

end Md5streambuf
end Zim
