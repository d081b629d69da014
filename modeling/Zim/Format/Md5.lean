import Zim.Lib.BlockFile
import Zim.Lib.BlockFold

/-! The message digest of md5.c, whose context takes a message in pieces. -/
namespace Zim.Md5
open Cxx BlockFold

def F (x y z : UInt32) : UInt32 := (x &&& y) ||| (~~~x &&& z)
def G (x y z : UInt32) : UInt32 := (x &&& z) ||| (y &&& ~~~z)
def H (x y z : UInt32) : UInt32 := x ^^^ y ^^^ z
def I (x y z : UInt32) : UInt32 := y ^^^ (x ||| ~~~z)

def rotateLeft (x n : UInt32) : UInt32 := (x <<< n) ||| (x >>> (32 - n))

structure State where
  a : UInt32
  b : UInt32
  c : UInt32
  d : UInt32
  deriving DecidableEq, Repr

/-- A line of a round with its word of the block, its shift and its constant. The arguments of the
next line are the same ones, the last of them first. -/
def line (g : UInt32 → UInt32 → UInt32 → UInt32) (x : List UInt32) (s : State)
    (row : ℕ × UInt32 × UInt32) : State :=
  let (k, shift, ac) := row
  ⟨s.d, rotateLeft (s.a + (g s.b s.c s.d + x.getD k 0 + ac)) shift + s.b, s.b, s.c⟩

def round1 : List (ℕ × UInt32 × UInt32) :=
  [(0, 7, 0xd76aa478), (1, 12, 0xe8c7b756), (2, 17, 0x242070db), (3, 22, 0xc1bdceee),
    (4, 7, 0xf57c0faf), (5, 12, 0x4787c62a), (6, 17, 0xa8304613), (7, 22, 0xfd469501),
    (8, 7, 0x698098d8), (9, 12, 0x8b44f7af), (10, 17, 0xffff5bb1), (11, 22, 0x895cd7be),
    (12, 7, 0x6b901122), (13, 12, 0xfd987193), (14, 17, 0xa679438e), (15, 22, 0x49b40821)]

def round2 : List (ℕ × UInt32 × UInt32) :=
  [(1, 5, 0xf61e2562), (6, 9, 0xc040b340), (11, 14, 0x265e5a51), (0, 20, 0xe9b6c7aa),
    (5, 5, 0xd62f105d), (10, 9, 0x2441453), (15, 14, 0xd8a1e681), (4, 20, 0xe7d3fbc8),
    (9, 5, 0x21e1cde6), (14, 9, 0xc33707d6), (3, 14, 0xf4d50d87), (8, 20, 0x455a14ed),
    (13, 5, 0xa9e3e905), (2, 9, 0xfcefa3f8), (7, 14, 0x676f02d9), (12, 20, 0x8d2a4c8a)]

def round3 : List (ℕ × UInt32 × UInt32) :=
  [(5, 4, 0xfffa3942), (8, 11, 0x8771f681), (11, 16, 0x6d9d6122), (14, 23, 0xfde5380c),
    (1, 4, 0xa4beea44), (4, 11, 0x4bdecfa9), (7, 16, 0xf6bb4b60), (10, 23, 0xbebfbc70),
    (13, 4, 0x289b7ec6), (0, 11, 0xeaa127fa), (3, 16, 0xd4ef3085), (6, 23, 0x4881d05),
    (9, 4, 0xd9d4d039), (12, 11, 0xe6db99e5), (15, 16, 0x1fa27cf8), (2, 23, 0xc4ac5665)]

def round4 : List (ℕ × UInt32 × UInt32) :=
  [(0, 6, 0xf4292244), (7, 10, 0x432aff97), (14, 15, 0xab9423a7), (5, 21, 0xfc93a039),
    (12, 6, 0x655b59c3), (3, 10, 0x8f0ccc92), (10, 15, 0xffeff47d), (1, 21, 0x85845dd1),
    (8, 6, 0x6fa87e4f), (15, 10, 0xfe2ce6e0), (6, 15, 0xa3014314), (13, 21, 0x4e0811a1),
    (4, 6, 0xf7537e82), (11, 10, 0xbd3af235), (2, 15, 0x2ad7d2bb), (9, 21, 0xeb86d391)]

def encode (words : List UInt32) : Bytes :=
  words.flatMap fun (w : UInt32) => [(w &&& 0xff).toUInt8, ((w >>> 8) &&& 0xff).toUInt8,
    ((w >>> 16) &&& 0xff).toUInt8, ((w >>> 24) &&& 0xff).toUInt8]

def decode : Bytes → List UInt32
  | b₀ :: b₁ :: b₂ :: b₃ :: rest =>
    (b₀.toUInt32 ||| b₁.toUInt32 <<< 8 ||| b₂.toUInt32 <<< 16 ||| b₃.toUInt32 <<< 24) ::
      decode rest
  | _ => []

/-- `MD5Transform`. -/
def transform (s : State) (block : Bytes) : State :=
  let x := decode block
  let t := round1.foldl (line F x) s
  let t := round2.foldl (line G x) t
  let t := round3.foldl (line H x) t
  let t := round4.foldl (line I x) t
  ⟨s.a + t.a, s.b + t.b, s.c + t.c, s.d + t.d⟩

/-- `MD5_CTX`, whose `buffer` has 64 bytes. -/
structure Context where
  state : State
  count0 : UInt32
  count1 : UInt32
  buffer : Bytes
  deriving DecidableEq, Repr

def initial : State := ⟨0x67452301, 0xefcdab89, 0x98badcfe, 0x10325476⟩

/-- `MD5Init`. -/
def Context.init (c : Context) : Context := { c with state := initial, count0 := 0, count1 := 0 }

/-- The number of bytes in the buffer. -/
def Context.index (c : Context) : UInt32 := (c.count0 >>> 3) &&& 0x3f

/-- The loop of `MD5Update` over the whole blocks of the input. -/
def transformLoop (input : Bytes) : ℕ → UInt32 → State → UInt32 × State
  | 0, i, s => (i, s)
  | turns + 1, i, s =>
    if i + 63 < UInt32.ofNat input.length then
      transformLoop input turns (i + 64) (transform s ((input.drop i.toNat).take 64))
    else (i, s)

/-- `MD5Update`. -/
def Context.update (c : Context) (input : Bytes) : Context :=
  let inputLen := UInt32.ofNat input.length
  let index := c.index
  let count0 := c.count0 + inputLen <<< 3
  let count1 := if count0 < inputLen <<< 3 then c.count1 + 1 else c.count1
  let count1 := count1 + inputLen >>> 29
  let partLen := 64 - index
  if inputLen ≥ partLen then
    let buffer := overwrite c.buffer index.toNat (input.take partLen.toNat)
    let (i, state) := transformLoop input (input.length / 64) partLen (transform c.state buffer)
    ⟨state, count0, count1, overwrite buffer 0 (input.drop i.toNat)⟩
  else ⟨c.state, count0, count1, overwrite c.buffer index.toNat input⟩

def PADDING : Bytes := 0x80 :: List.replicate 63 0

/-- `MD5Final`: the digest, and the context set to zero. -/
def Context.final (c : Context) : Bytes × Context :=
  let bits := encode [c.count0, c.count1]
  let index := c.index
  let padLen := if index < 56 then 56 - index else 120 - index
  let c := c.update (PADDING.take padLen.toNat)
  let c := c.update bits
  (encode [c.state.a, c.state.b, c.state.c, c.state.d],
    ⟨⟨0, 0, 0, 0⟩, 0, 0, List.replicate 64 0⟩)

/-- The bytes behind a message of some length: a single bit, zeros up to 56 bytes behind a whole
number of blocks, and the number of bits. -/
def padding (n : ℕ) : Bytes :=
  0x80 :: List.replicate ((119 - n % 64) % 64) 0 ++ LittleEndian.encode 8 (8 * n)

/-- The digest of a message in one piece. -/
def digest (msg : Bytes) : Bytes :=
  let s := (absorb transform 64 initial (msg ++ padding msg.length)).1
  encode [s.a, s.b, s.c, s.d]

section Update
variable {c : Context} {msg input : Bytes}

/-- The context has taken a message: the number of its bits, the state behind its whole blocks, and
the rest of it in the front of the buffer. -/
structure Context.Holds (c : Context) (msg : Bytes) : Prop where
  count : c.count0.toNat + 2 ^ 32 * c.count1.toNat = 8 * msg.length % 2 ^ 64
  size : c.buffer.length = 64
  absorbed : absorb transform 64 initial msg = (c.state, c.buffer.take (msg.length % 64))

theorem Context.init_holds (hsize : c.buffer.length = 64) : c.init.Holds [] where
  count := rfl
  size := hsize
  absorbed := by
    rw [absorb_of_lt (by decide)]
    rfl

theorem index_toNat (h : c.Holds msg) :
    c.index.toNat = msg.length % 64 := by
  have hcount := h.count
  have hmask : (0x3f : UInt32).toNat = 2 ^ 6 - 1 := rfl
  have hshift : (c.count0 >>> 3).toNat = c.count0.toNat / 8 := by
    rw [UInt32.toNat_shiftRight, Nat.shiftRight_eq_div_pow]
    rfl
  rw [Context.index, UInt32.toNat_and, hmask, Nat.and_two_pow_sub_one_eq_mod, hshift]
  omega

theorem count_update (count0 count1 : UInt32) {len : ℕ} (hlen : len < 2 ^ 32) :
    let inputLen := UInt32.ofNat len
    let sum := count0 + inputLen <<< 3
    sum.toNat + 2 ^ 32 * ((if sum < inputLen <<< 3 then count1 + 1 else count1) +
        inputLen >>> 29).toNat =
      (count0.toNat + 2 ^ 32 * count1.toNat + 8 * len) % 2 ^ 64 := by
  have h0 := count0.toNat_lt
  have h1 := count1.toNat_lt
  have hinput : (UInt32.ofNat len).toNat = len := UInt32.toNat_ofNat_of_lt' hlen
  have hleft : (UInt32.ofNat len <<< 3).toNat = len * 8 % 2 ^ 32 := by
    rw [UInt32.toNat_shiftLeft, hinput, Nat.shiftLeft_eq]
    rfl
  have hright : (UInt32.ofNat len >>> 29).toNat = len / 2 ^ 29 := by
    rw [UInt32.toNat_shiftRight, hinput, Nat.shiftRight_eq_div_pow]
    rfl
  dsimp only
  split_ifs with hcarry
  · rw [UInt32.lt_iff_toNat_lt, UInt32.toNat_add, hleft] at hcarry
    rw [UInt32.toNat_add, UInt32.toNat_add, UInt32.toNat_add, hleft, hright, UInt32.toNat_one]
    omega
  · rw [UInt32.lt_iff_toNat_lt, UInt32.toNat_add, hleft] at hcarry
    rw [UInt32.toNat_add, UInt32.toNat_add, hleft, hright]
    omega

/-- The front of a buffer behind something that is written into it. -/
theorem take_overwrite {content : Bytes} {off : ℕ} (bs : Bytes) (h : off ≤ content.length) :
    (overwrite content off bs).take (off + bs.length) = content.take off ++ bs := by
  have hfront : (content.take off).rightpad off 0 = content.take off := by
    simp [List.rightpad, List.length_take_of_le h]
  have hlen : (content.take off ++ bs).length = off + bs.length := by
    rw [List.length_append, List.length_take_of_le h]
  rw [overwrite, hfront, ← hlen, List.take_left]

/-- The loop takes the whole blocks of what is left of the input. -/
theorem transformLoop_absorb (hlen : input.length + 64 ≤ 2 ^ 32) (turns : ℕ) {i : UInt32}
    (hi : i.toNat ≤ input.length) (hturns : input.length < i.toNat + 64 * (turns + 1)) (s : State) :
    absorb transform 64 s (input.drop i.toNat) =
      ((transformLoop input turns i s).2, input.drop (transformLoop input turns i s).1.toNat) := by
  induction turns generalizing i s with
  | zero =>
    rw [absorb_of_lt (by rw [List.length_drop]; omega)]
    rfl
  | succ turns ih =>
    have hinput : (UInt32.ofNat input.length).toNat = input.length :=
      UInt32.toNat_ofNat_of_lt' (by simp only [UInt32.size]; omega)
    have hnext : (i + 63).toNat = i.toNat + 63 := by
      rw [UInt32.toNat_add]
      exact Nat.mod_eq_of_lt (by simp only [UInt32.reduceToNat]; omega)
    rw [transformLoop]
    by_cases hmore : i + 63 < UInt32.ofNat input.length
    · rw [if_pos hmore]
      rw [UInt32.lt_iff_toNat_lt, hnext, hinput] at hmore
      have hstep : (i + 64).toNat = i.toNat + 64 := by
        rw [UInt32.toNat_add]
        exact Nat.mod_eq_of_lt (by simp only [UInt32.reduceToNat]; omega)
      have hblock : ((input.drop i.toNat).take 64).length = 64 :=
        List.length_take_of_le (by rw [List.length_drop]; omega)
      have hsplit : input.drop i.toNat =
          (input.drop i.toNat).take 64 ++ input.drop (i + 64).toNat := by
        rw [hstep, ← List.drop_drop, List.take_append_drop]
      rw [← ih (by omega) (by omega), hsplit, absorb_block (by decide) hblock, ← hsplit]
    · rw [if_neg hmore]
      rw [UInt32.lt_iff_toNat_lt, hnext, hinput] at hmore
      rw [absorb_of_lt (by rw [List.length_drop]; omega)]

theorem partLen_toNat (h : c.Holds msg) :
    (64 - c.index).toNat = 64 - msg.length % 64 := by
  have hindex := index_toNat h
  have hle : c.index ≤ 64 := by
    rw [UInt32.le_iff_toNat_le, hindex]
    exact (Nat.mod_lt _ (by decide)).le
  rw [UInt32.toNat_sub_of_le _ _ hle, hindex]
  rfl

/-- The buffer goes on with the message. -/
theorem Context.Holds.absorb_append (h : c.Holds msg) (input : Bytes) :
    absorb transform 64 initial (msg ++ input) =
      absorb transform 64 c.state (c.buffer.take (msg.length % 64) ++ input) := by
  rw [BlockFold.absorb_append, h.absorbed]

/-- What is left of the input goes to the front of the buffer, or behind what is there. -/
theorem Context.Holds.update (h : c.Holds msg) (hlen : input.length + 64 ≤ 2 ^ 32) :
    (c.update input).Holds (msg ++ input) := by
  have hinput : (UInt32.ofNat input.length).toNat = input.length :=
    UInt32.toNat_ofNat_of_lt' (by simp only [UInt32.size]; omega)
  have hindex := index_toNat h
  have hpart := partLen_toNat h
  have hmod : msg.length % 64 < 64 := Nat.mod_lt _ (by decide)
  have hinside : msg.length % 64 ≤ c.buffer.length := by rw [h.size]; exact hmod.le
  have hcount := count_update c.count0 c.count1 (show input.length < 2 ^ 32 by omega)
  rw [h.count] at hcount
  replace hcount := hcount.trans (show _ = 8 * (msg ++ input).length % 2 ^ 64 by
    rw [List.length_append]; omega)
  have hrest := rest_length (f := transform) (s := initial) (n := 64) (by decide) (msg ++ input)
  rw [h.absorb_append] at hrest
  unfold Context.update
  dsimp only
  by_cases hfull : UInt32.ofNat input.length ≥ 64 - c.index
  · rw [if_pos hfull]
    rw [ge_iff_le, UInt32.le_iff_toNat_le, hpart, hinput] at hfull
    rw [hindex, hpart]
    -- the buffer is completed to a block
    have hfront : (input.take (64 - msg.length % 64)).length = 64 - msg.length % 64 :=
      List.length_take_of_le hfull
    have hbuffer := take_overwrite (input.take (64 - msg.length % 64)) hinside
    have hsize : (overwrite c.buffer (msg.length % 64)
        (input.take (64 - msg.length % 64))).length = 64 := by
      rw [overwrite_length (by rw [hfront, h.size]; omega), h.size]
    rw [List.take_of_length_le (by rw [hsize, hfront]; omega)] at hbuffer
    have hsplit : c.buffer.take (msg.length % 64) ++ input =
        overwrite c.buffer (msg.length % 64) (input.take (64 - msg.length % 64)) ++
          input.drop (64 - msg.length % 64) := by
      rw [hbuffer, List.append_assoc, List.take_append_drop]
    generalize overwrite c.buffer (msg.length % 64) (input.take (64 - msg.length % 64)) = block
      at hsize hsplit ⊢
    have hloop := transformLoop_absorb hlen (input.length / 64) (i := 64 - c.index) (by omega)
      (by omega) (transform c.state block)
    have habsorb := h.absorb_append input
    rw [hpart] at hloop
    rw [hsplit, absorb_block (by decide) hsize, hloop] at habsorb hrest
    generalize transformLoop input (input.length / 64) (64 - c.index) (transform c.state block) = r
      at habsorb hrest ⊢
    have hleft := @take_overwrite block 0 (input.drop r.1.toNat) (Nat.zero_le _)
    rw [List.take_zero, List.nil_append, Nat.zero_add, hrest] at hleft
    have hshort : (msg ++ input).length % 64 < 64 := Nat.mod_lt _ (by decide)
    refine ⟨hcount, ?_, ?_⟩
    · rw [overwrite_length (by rw [hsize]; dsimp only at hrest; omega), hsize]
    · rw [habsorb, hleft]
  · rw [if_neg hfull]
    rw [ge_iff_le, UInt32.le_iff_toNat_le, hpart, hinput] at hfull
    have hfront : (c.buffer.take (msg.length % 64)).length = msg.length % 64 :=
      List.length_take_of_le hinside
    have hshort : (c.buffer.take (msg.length % 64) ++ input).length < 64 := by
      rw [List.length_append, hfront]
      omega
    rw [absorb_of_lt hshort, List.length_append, hfront] at hrest
    refine ⟨hcount, ?_, ?_⟩
    · rw [hindex, overwrite_length (by rw [h.size]; omega), h.size]
    · rw [h.absorb_append, absorb_of_lt hshort, hindex, ← hrest, take_overwrite _ hinside]

end Update

section Final
variable {c : Context} {msg : Bytes}

theorem encode_word (w : UInt32) : encode [w] = LittleEndian.encode 4 w.toNat := by
  have hmask : (0xff : UInt32).toNat = 2 ^ 8 - 1 := rfl
  have hbyte (v : UInt32) : (v &&& 0xff).toUInt8 = UInt8.ofNat v.toNat := by
    apply UInt8.toNat_inj.mp
    rw [UInt32.toNat_toUInt8, UInt32.toNat_and, hmask, Nat.and_two_pow_sub_one_eq_mod,
      UInt8.toNat_ofNat', Nat.mod_mod]
  have hshift (n : UInt32) (hn : n.toNat < 32) :
      (w >>> n).toNat = w.toNat / 2 ^ n.toNat := by
    rw [UInt32.toNat_shiftRight, Nat.shiftRight_eq_div_pow, Nat.mod_eq_of_lt hn]
  simp only [encode, List.flatMap_cons, List.flatMap_nil, List.append_nil, LittleEndian.encode,
    hbyte, hshift 8 (by decide), hshift 16 (by decide), hshift 24 (by decide)]
  simp only [Nat.div_div_eq_div_mul]
  rfl

/-- The number of bits, modulo the size of the two words. -/
theorem encode_count (h : c.Holds msg) :
    encode [c.count0, c.count1] = LittleEndian.encode 8 (8 * msg.length) := by
  have hcount := h.count
  have h0 := c.count0.toNat_lt
  have hpair : encode [c.count0, c.count1] = encode [c.count0] ++ encode [c.count1] := rfl
  rw [← LittleEndian.encode_mod 8, show 256 ^ 8 = 2 ^ 64 by norm_num, ← hcount, hpair,
    encode_word, encode_word,
    show 8 = 4 + 4 from rfl, LittleEndian.encode_append, ← LittleEndian.encode_mod 4 (_ + _),
    show (256 : ℕ) ^ 4 = 2 ^ 32 by norm_num, Nat.add_mul_mod_self_left,
    Nat.add_mul_div_left _ _ (by norm_num), Nat.mod_eq_of_lt h0, Nat.div_eq_of_lt h0, Nat.zero_add]

theorem take_padding {k : ℕ} (hk : k < 64) :
    PADDING.take (if k < 56 then 56 - k else 120 - k) =
      0x80 :: List.replicate ((119 - k) % 64) 0 := by
  obtain ⟨n, hn, hmod⟩ : ∃ n, (if k < 56 then 56 - k else 120 - k) = n + 1 ∧
      (119 - k) % 64 = n := by
    refine ⟨(119 - k) % 64, ?_, rfl⟩
    split_ifs <;> omega
  rw [hn, hmod, PADDING, List.take_succ_cons, List.take_replicate, Nat.min_eq_left (by omega)]

/-- However a message came in pieces, its digest is that of the whole message. -/
theorem Context.Holds.final_digest (h : c.Holds msg) : c.final.1 = digest msg := by
  have hk : msg.length % 64 < 64 := Nat.mod_lt _ (by decide)
  have hindex := index_toNat h
  have hpad : (if c.index < 56 then 56 - c.index else 120 - c.index).toNat =
      if msg.length % 64 < 56 then 56 - msg.length % 64 else 120 - msg.length % 64 := by
    have hless : c.index < 56 ↔ msg.length % 64 < 56 := by
      rw [UInt32.lt_iff_toNat_lt, hindex]
      rfl
    simp only [hless]
    split_ifs with hshort
    · rw [UInt32.toNat_sub_of_le _ _ (UInt32.le_iff_toNat_le.mpr (by rw [hindex]; exact hshort.le)),
        hindex]
      rfl
    · rw [UInt32.toNat_sub_of_le _ _ (UInt32.le_iff_toNat_le.mpr (by
        rw [hindex]
        exact hk.le.trans (by decide))), hindex]
      rfl
  have hfew : (PADDING.take (if c.index < 56 then 56 - c.index else 120 - c.index).toNat).length +
      64 ≤ 2 ^ 32 := by
    rw [List.length_take, PADDING]
    simp only [List.length_cons, List.length_replicate]
    omega
  have hbits : (encode [c.count0, c.count1]).length + 64 ≤ 2 ^ 32 := by
    rw [encode_count h, LittleEndian.encode_length]
    decide
  have hwhole := (h.update hfew).update hbits
  rw [hpad, take_padding hk, encode_count h, List.append_assoc] at hwhole
  have hstate := congrArg Prod.fst hwhole.absorbed
  rw [digest, padding, hstate, Context.final]
  simp only [hpad, take_padding hk, encode_count h]

/-- Some pieces of a message one after another. -/
theorem Context.Holds.updates (h : c.Holds msg) {pieces : List Bytes}
    (hlen : ∀ piece ∈ pieces, piece.length + 64 ≤ 2 ^ 32) :
    (pieces.foldl Context.update c).Holds (msg ++ pieces.flatten) := by
  induction pieces generalizing c msg with
  | nil => simpa using h
  | cons piece pieces ih =>
    rw [List.foldl_cons, List.flatten_cons, ← List.append_assoc]
    exact ih (h.update (hlen _ List.mem_cons_self)) fun p hp => hlen p (List.mem_cons_of_mem _ hp)

/-- The digest does not depend on the pieces that a message comes in, of up to 2 ^ 32 - 64 bytes,
nor on what the context held before. -/
theorem Context.final_updates (c : Context) (hsize : c.buffer.length = 64) (pieces : List Bytes)
    (hlen : ∀ piece ∈ pieces, piece.length + 64 ≤ 2 ^ 32) :
    (pieces.foldl Context.update c.init).final.1 = digest pieces.flatten :=
  ((Context.init_holds hsize).updates hlen).final_digest

theorem Context.final_updates_abc :
    ([[0x61], [], [0x62, 0x63]].foldl Context.update
      (Context.init ⟨⟨1, 2, 3, 4⟩, 5, 6, List.replicate 64 7⟩)).final.1 =
        digest ([[0x61], [], [0x62, 0x63]] : List Bytes).flatten :=
  Context.final_updates _ (by decide) _ (by decide)

example : digest [0x61, 0x62, 0x63] = [0x90, 0x01, 0x50, 0x98, 0x3c, 0xd2, 0x4f, 0xb0, 0xd6, 0x96,
    0x3f, 0x7d, 0x28, 0xe1, 0x7f, 0x72] := by decide +kernel

end Final

end Zim.Md5
