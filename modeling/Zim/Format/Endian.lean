import Zim.Lib.Streams

/-! Little-endian fields of an archive on hosts of either byte order (endian.h). -/
namespace Zim
open Cxx

/-- `toLittleEndian(d, dst)` for a type of `w` bytes. -/
def toLittleEndian (host : ByteOrder) (w n : ℕ) : Bytes :=
  match host with
  | .big => (host.memory w n).reverse
  | .little => host.memory w n

/-- `fromLittleEndian(ptr)`, `ptr` pointing to the given bytes. -/
def fromLittleEndian (host : ByteOrder) (bs : Bytes) : ℕ :=
  match host with
  | .big => host.value bs.reverse
  | .little => host.value bs

/-- The memory of `fromLittleEndian(&n)`, which is how values are prepared for `out.write`. -/
def littleEndianBytes (host : ByteOrder) (w n : ℕ) : Bytes :=
  host.memory w (fromLittleEndian host (host.memory w n))

@[simp] theorem toLittleEndian_eq (host : ByteOrder) (w n : ℕ) :
    toLittleEndian host w n = LittleEndian.encode w n := by
  cases host <;> simp [toLittleEndian, ByteOrder.memory]

@[simp] theorem fromLittleEndian_eq (host : ByteOrder) (bs : Bytes) :
    fromLittleEndian host bs = LittleEndian.decode bs := by
  cases host <;> simp [fromLittleEndian, ByteOrder.value]

@[simp] theorem littleEndianBytes_eq (host : ByteOrder) (w n : ℕ) :
    littleEndianBytes host w n = LittleEndian.encode w n := by
  rw [littleEndianBytes, fromLittleEndian_eq]
  cases host with
  | little =>
    have h := LittleEndian.encode_decode (LittleEndian.encode w n)
    rwa [LittleEndian.encode_length] at h
  | big =>
    have h := LittleEndian.encode_decode (LittleEndian.encode w n).reverse
    rw [List.length_reverse, LittleEndian.encode_length] at h
    rw [ByteOrder.memory, ByteOrder.memory, h, List.reverse_reverse]

@[simp] theorem decode_encode_uint16 (n : UInt16) :
    UInt16.ofNat (LittleEndian.decode (LittleEndian.encode 2 n.toNat)) = n := by
  rw [LittleEndian.decode_encode_of_lt n.toNat_lt, UInt16.ofNat_toNat]

@[simp] theorem decode_encode_uint32 (n : UInt32) :
    UInt32.ofNat (LittleEndian.decode (LittleEndian.encode 4 n.toNat)) = n := by
  rw [LittleEndian.decode_encode_of_lt n.toNat_lt, UInt32.ofNat_toNat]

@[simp] theorem decode_encode_uint64 (n : UInt64) :
    UInt64.ofNat (LittleEndian.decode (LittleEndian.encode 8 n.toNat)) = n := by
  rw [LittleEndian.decode_encode_of_lt n.toNat_lt, UInt64.ofNat_toNat]

/-- The memory of a `size_type` prepared for `out.write`. -/
def sizeTypeBytes (host : ByteOrder) (n : UInt32) : Bytes := littleEndianBytes host 4 n.toNat

/-- The memory of an `offset_type` prepared for `out.write`. -/
def offsetTypeBytes (host : ByteOrder) (n : UInt64) : Bytes := littleEndianBytes host 8 n.toNat

@[simp] theorem sizeTypeBytes_length (host : ByteOrder) (n : UInt32) :
    (sizeTypeBytes host n).length = 4 := by simp [sizeTypeBytes]

@[simp] theorem offsetTypeBytes_length (host : ByteOrder) (n : UInt64) :
    (offsetTypeBytes host n).length = 8 := by simp [offsetTypeBytes]

@[simp] theorem decode_sizeTypeBytes (host : ByteOrder) (n : UInt32) :
    UInt32.ofNat (LittleEndian.decode (sizeTypeBytes host n)) = n := by simp [sizeTypeBytes]

@[simp] theorem decode_offsetTypeBytes (host : ByteOrder) (n : UInt64) :
    UInt64.ofNat (LittleEndian.decode (offsetTypeBytes host n)) = n := by simp [offsetTypeBytes]

/-- The `w` bytes at offset `off`. -/
def field (bs : Bytes) (off w : ℕ) : Bytes := (bs.drop off).take w

theorem field_skip {front : Bytes} {off : ℕ} (h : front.length ≤ off) (back : Bytes) (w : ℕ) :
    field (front ++ back) off w = field back (off - front.length) w := by
  rw [field, List.drop_append, List.drop_eq_nil_of_le h, List.nil_append, field]

theorem field_front {front : Bytes} {w : ℕ} (h : w ≤ front.length) (back : Bytes) :
    field (front ++ back) 0 w = field front 0 w := by
  rw [field, List.drop_zero, List.take_append_of_le_length h, field, List.drop_zero]

theorem field_all {bs : Bytes} {w : ℕ} (h : bs.length = w) : field bs 0 w = bs := by
  rw [field, List.drop_zero, ← h, List.take_length]

@[simp] theorem field_cons_succ (b : UInt8) (bs : Bytes) (off w : ℕ) :
    field (b :: bs) (off + 1) w = field bs off w := rfl

@[simp] theorem field_cons_one (b : UInt8) (bs : Bytes) : field (b :: bs) 0 1 = [b] := rfl

end Zim
