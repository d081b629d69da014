import Zim.Lib.LittleEndian

/-! Byte streams with the sticky failure flag of the C++ standard library, and the
object representation of unsigned integers on hosts of either byte order. -/
namespace Cxx

abbrev Bytes := List UInt8

inductive ByteOrder where
  | little | big
  deriving DecidableEq, Repr

namespace ByteOrder

/-- The `w` bytes a host keeps in memory for the unsigned integer `n`. -/
def memory (o : ByteOrder) (w n : ℕ) : Bytes :=
  match o with
  | .little => LittleEndian.encode w n
  | .big => (LittleEndian.encode w n).reverse

/-- The unsigned integer a host reads from an object's bytes. -/
def value (o : ByteOrder) (bs : Bytes) : ℕ :=
  match o with
  | .little => LittleEndian.decode bs
  | .big => LittleEndian.decode bs.reverse

@[simp] theorem memory_length (o : ByteOrder) (w n : ℕ) : (o.memory w n).length = w := by
  cases o <;> simp [memory]

@[simp] theorem value_memory (o : ByteOrder) (w n : ℕ) :
    o.value (o.memory w n) = n % 256 ^ w := by
  cases o <;> simp [memory, value]

end ByteOrder

/-- A `std::istream`: the bytes not yet extracted and the failure flag. An extraction
past the end sets the flag, and no extraction succeeds while it is set. -/
structure IStream where
  rest : Bytes
  fail : Bool
  deriving DecidableEq, Repr

namespace IStream

def ofBytes (bs : Bytes) : IStream := ⟨bs, false⟩

def setFail (s : IStream) : IStream := { s with fail := true }

/-- `in.get(ch)`. -/
def get (s : IStream) : Option UInt8 × IStream :=
  if s.fail then (none, s)
  else match s.rest with
    | [] => (none, ⟨[], true⟩)
    | b :: bs => (some b, ⟨bs, false⟩)

/-- `in.read(buf, n)`: the bytes stored into the buffer, `gcount` being their number. -/
def read (s : IStream) (n : ℕ) : Bytes × IStream :=
  if s.fail then ([], s)
  else if n ≤ s.rest.length then (s.rest.take n, ⟨s.rest.drop n, false⟩)
  else (s.rest, ⟨[], true⟩)

/-- Single characters taken with `in.get(ch)`: at most `n`, and fewer where the stream ends. -/
def getUpTo : ℕ → IStream → Bytes × IStream
  | 0, s => ([], s)
  | n + 1, s =>
    match s.get with
    | (none, s) => ([], s)
    | (some ch, s) =>
      let (bs, s) := getUpTo n s
      (ch :: bs, s)

@[simp] theorem ofBytes_rest (bs : Bytes) : (ofBytes bs).rest = bs := rfl
@[simp] theorem ofBytes_fail (bs : Bytes) : (ofBytes bs).fail = false := rfl
@[simp] theorem setFail_fail (s : IStream) : s.setFail.fail = true := rfl

theorem get_of_fail {s : IStream} (h : s.fail = true) : s.get = (none, s) := by
  simp [get, h]

@[simp] theorem get_nil : get ⟨[], false⟩ = (none, ⟨[], true⟩) := rfl

@[simp] theorem get_cons (b : UInt8) (bs : Bytes) :
    get ⟨b :: bs, false⟩ = (some b, ⟨bs, false⟩) := rfl

theorem get_some {s s' : IStream} {ch : UInt8} (h : s.get = (some ch, s')) :
    s = ⟨ch :: s'.rest, false⟩ ∧ s'.fail = false := by
  obtain ⟨rest, fail⟩ := s
  cases fail with
  | true => simp [get] at h
  | false =>
    cases rest with
    | nil => simp at h
    | cons b bs =>
      rw [get_cons] at h
      cases h
      exact ⟨rfl, rfl⟩

theorem get_none {s s' : IStream} (h : s.get = (none, s')) : s'.fail = true := by
  obtain ⟨rest, fail⟩ := s
  cases fail with
  | true =>
    rw [get_of_fail rfl] at h
    cases h
    rfl
  | false =>
    cases rest with
    | nil =>
      cases h
      rfl
    | cons b bs => cases h

theorem read_of_fail {s : IStream} (h : s.fail = true) (n : ℕ) : s.read n = ([], s) := by
  simp [read, h]

theorem read_of_le {bs : Bytes} {n : ℕ} (h : n ≤ bs.length) :
    read ⟨bs, false⟩ n = (bs.take n, ⟨bs.drop n, false⟩) := by simp [read, h]

theorem read_of_lt {bs : Bytes} {n : ℕ} (h : bs.length < n) :
    read ⟨bs, false⟩ n = (bs, ⟨[], true⟩) := by simp [read, Nat.not_le.mpr h]

theorem read_append {bs rest : Bytes} {n : ℕ} (h : bs.length = n) :
    read ⟨bs ++ rest, false⟩ n = (bs, ⟨rest, false⟩) := by
  subst h
  rw [read_of_le (by simp), List.take_left, List.drop_left]

theorem getUpTo_append (bs rest : Bytes) :
    getUpTo bs.length ⟨bs ++ rest, false⟩ = (bs, ⟨rest, false⟩) := by
  induction bs with
  | nil => rfl
  | cons b bs ih => simp [getUpTo, ih]

/-- A read that leaves the stream usable delivered exactly the bytes asked for. -/
theorem read_ok {s s' : IStream} {n : ℕ} {bs : Bytes} (h : s.read n = (bs, s'))
    (hs : s'.fail = false) : s.fail = false ∧ bs.length = n ∧ s.rest = bs ++ s'.rest := by
  obtain ⟨rest, fail⟩ := s
  cases fail with
  | true =>
    rw [read_of_fail rfl] at h
    cases h
    cases hs
  | false =>
    by_cases hn : n ≤ rest.length
    · rw [read_of_le hn] at h
      cases h
      exact ⟨rfl, List.length_take_of_le hn, (List.take_append_drop n rest).symm⟩
    · rw [read_of_lt (Nat.lt_of_not_le hn)] at h
      cases h
      cases hs

end IStream

/-- The largest file position a stream can reach (`std::streamoff` is a signed 64-bit type). -/
def maxOffset : ℕ := 2 ^ 63 - 1

/-- A `std::ofstream`: the bytes written so far and the failure flag. -/
structure OStream where
  bytes : Bytes
  fail : Bool
  deriving DecidableEq, Repr

namespace OStream

def empty : OStream := ⟨[], false⟩

def write (s : OStream) (bs : Bytes) : OStream :=
  if s.fail then s
  else if s.bytes.length + bs.length ≤ maxOffset then ⟨s.bytes ++ bs, false⟩
  else ⟨s.bytes, true⟩

/-- `out.tellp()`, which is -1 on a failed stream. -/
def tellp (s : OStream) : UInt64 :=
  if s.fail then UInt64.ofNat (2 ^ 64 - 1) else UInt64.ofNat s.bytes.length

/-- A write that succeeds appends its bytes, on a stream that was good before. -/
theorem write_ok {s : OStream} {bs : Bytes} (h : (s.write bs).fail = false) :
    s.fail = false ∧ (s.write bs).bytes = s.bytes ++ bs ∧
      s.bytes.length + bs.length ≤ maxOffset := by
  unfold write at h ⊢
  by_cases hf : s.fail = true
  · simp [hf] at h
  · by_cases hl : s.bytes.length + bs.length ≤ maxOffset
    · simp [hf, hl]
    · simp [hf, hl] at h

/-- What has been written between two states of a stream, if the second one is good. -/
structure Appends (out out' : OStream) (bs : Bytes) : Prop where
  good : out'.fail = false → out.fail = false
  bytes : out'.fail = false → out'.bytes = out.bytes ++ bs
  size : out'.fail = false → out.bytes.length ≤ maxOffset → out'.bytes.length ≤ maxOffset

namespace Appends
variable {out out₁ out₂ : OStream} {bs bs' : Bytes}

theorem refl (out : OStream) : Appends out out [] :=
  ⟨id, fun _ => (List.append_nil _).symm, fun _ => id⟩

theorem write (h : Appends out out₁ bs) (bs' : Bytes) :
    Appends out (out₁.write bs') (bs ++ bs') := by
  refine ⟨fun hgood => ?_, fun hgood => ?_, fun hgood hsize => ?_⟩
  · exact h.good (write_ok hgood).1
  · obtain ⟨hgood₁, hbytes, -⟩ := write_ok hgood
    rw [hbytes, h.bytes hgood₁, List.append_assoc]
  · obtain ⟨-, hbytes, hlen⟩ := write_ok hgood
    rw [hbytes, List.length_append]
    exact hlen

/-- A loop each turn of which writes something. -/
theorem foldl {α : Type} (step : OStream → α → OStream) (f : α → Bytes)
    (hstep : ∀ out₁ bs a, Appends out out₁ bs → Appends out (step out₁ a) (bs ++ f a))
    (h : Appends out out₁ bs) (l : List α) :
    Appends out (l.foldl step out₁) (bs ++ l.flatMap f) := by
  induction l generalizing out₁ bs with
  | nil => simpa using h
  | cons a l ih =>
    rw [List.foldl_cons, List.flatMap_cons, ← List.append_assoc]
    exact ih (hstep _ _ a h)

end Appends
end OStream
end Cxx
