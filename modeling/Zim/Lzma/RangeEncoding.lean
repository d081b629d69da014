import Mathlib.Tactic.Linarith
import Zim.Lzma.RangeDecoding

/-! The range encoder writes a range code: the bytes that are written, those that a carry may still
change, and `low` are the digits of where the range begins. -/
namespace Lzma
open Cxx RangeCode
namespace RangeEncoder
variable {ι : Type} {rc : RangeEncoder ι} {out : Bytes}

/-- The bytes of a run of `emitLoop` without a limit. -/
def emission (high cache : UInt8) : ℕ → Bytes
  | 0 => []
  | turns + 1 => (cache + high) :: List.replicate turns (0xFF + high)

theorem emission_ones (high : UInt8) (turns : ℕ) :
    emission high 0xFF turns = List.replicate turns (0xFF + high) := by
  cases turns <;> rfl

theorem emission_length (high cache : UInt8) (turns : ℕ) :
    (emission high cache turns).length = turns := by
  cases turns with
  | zero => rfl
  | succ turns => rw [emission, List.length_cons, List.length_replicate]

/-- Where the output becomes full, what is left to be written is kept. -/
structure Emits (e : Emitted) (high cache : UInt8) (turns room : ℕ) : Prop where
  out : e.out ++ emission high e.cache e.cacheSize.toNat = emission high cache turns
  length_le : e.out.length ≤ room
  full : e.full = true → e.out.length = room ∧ 0 < e.cacheSize.toNat
  done : e.full = false → e.cacheSize = 0

theorem emitLoop_emits (high cache : UInt8) {turns : ℕ} (room : ℕ) (hturns : turns < 2 ^ 64) :
    Emits (emitLoop high turns cache room) high cache turns room := by
  induction turns generalizing cache room with
  | zero => exact ⟨rfl, Nat.zero_le _, Bool.noConfusion, fun _ => rfl⟩
  | succ turns ih =>
    cases room with
    | zero =>
      have hsize : (UInt64.ofNat (turns + 1)).toNat = turns + 1 :=
        UInt64.toNat_ofNat_of_lt' hturns
      refine ⟨?_, Nat.le_refl _, fun _ => ⟨rfl, ?_⟩, Bool.noConfusion⟩
      · show [] ++ emission high cache (UInt64.ofNat (turns + 1)).toNat = _
        rw [hsize, List.nil_append]
      · show 0 < (UInt64.ofNat (turns + 1)).toNat
        omega
    | succ room =>
      obtain ⟨hout, hle, hfull, hdone⟩ := ih 0xFF room (by omega)
      refine ⟨?_, Nat.succ_le_succ hle, fun h => ?_, hdone⟩
      · rw [emission_ones] at hout
        show (cache + high) :: ((emitLoop high turns 0xFF room).out ++
          emission high (emitLoop high turns 0xFF room).cache
            (emitLoop high turns 0xFF room).cacheSize.toNat) = _
        rw [hout]
        rfl
      · obtain ⟨hlength, hpos⟩ := hfull h
        exact ⟨congrArg (· + 1) hlength, hpos⟩

/-- The carry out of `low`. -/
def high (rc : RangeEncoder ι) : UInt8 := (rc.low >>> 32).toUInt8

/-- The bytes that are not yet written, with the carry out of `low`. -/
def pending (rc : RangeEncoder ι) : Bytes := emission rc.high rc.cache rc.cacheSize.toNat

/-- With the bytes written before, the encoder holds a position of `n` digits and 32 bits. -/
structure Holds (out : Bytes) (rc : RangeEncoder ι) (n position : ℕ) : Prop where
  cacheSize : 0 < rc.cacheSize.toNat
  length : (out ++ rc.pending).length = n
  position : number 256 (digits (out ++ rc.pending)) * 2 ^ 32 + rc.low.toNat % 2 ^ 32 = position

/-- Whether `rc_shift_low` writes. -/
def Settled (rc : RangeEncoder ι) : Prop :=
  rc.low.toNat % 2 ^ 32 < 0xFF000000 ∨ 2 ^ 32 ≤ rc.low.toNat

/-- Nothing in the range leads to a carry beyond the byte that is kept. -/
def Room (rc : RangeEncoder ι) (width : ℕ) : Prop :=
  rc.low.toNat + width ≤ if rc.cache = 0xFF then 2 ^ 32 else 2 ^ 33

/-- The same in front of `rc_shift_low`, which may have been left in its loop. -/
def Ready (rc : RangeEncoder ι) (width : ℕ) : Prop :=
  rc.low.toNat + width ≤ 2 ^ 33 ∧ (rc.Settled ∨ rc.Room width)

theorem Room.ready {width : ℕ} (h : rc.Room width) : rc.Ready width := by
  refine ⟨?_, .inr h⟩
  unfold Room at h
  split_ifs at h
  · omega
  · exact h

theorem Room.mono {width width' : ℕ} (h : rc.Room width) (hle : width' ≤ width) :
    rc.Room width' :=
  Nat.le_trans (Nat.add_le_add_left hle _) h

theorem high_toNat (h : rc.low.toNat < 2 ^ 33) : rc.high.toNat = rc.low.toNat / 2 ^ 32 := by
  have hshift : (rc.low >>> 32).toNat = rc.low.toNat / 2 ^ 32 := by
    rw [UInt64.toNat_shiftRight, Nat.shiftRight_eq_div_pow]
    rfl
  unfold high
  rw [UInt64.toNat_toUInt8, hshift]
  omega

theorem high_eq_zero (h : rc.low.toNat < 2 ^ 32) : rc.high = 0 := by
  apply UInt8.toNat_inj.mp
  rw [high_toNat (by omega), Nat.div_eq_of_lt h]
  rfl

theorem high_eq_one (h : 2 ^ 32 ≤ rc.low.toNat) (hlt : rc.low.toNat < 2 ^ 33) : rc.high = 1 := by
  apply UInt8.toNat_inj.mp
  rw [high_toNat hlt]
  show _ = 1
  omega

theorem digits_append (bs bs' : Bytes) : digits (bs ++ bs') = digits bs ++ digits bs' :=
  List.map_append ..

section Narrow
variable {n position start part width : ℕ}

theorem position_carry {m low low' : ℕ} (h : m * 2 ^ 32 + low % 2 ^ 32 = position)
    (hlow : low < 2 ^ 32) (hlow' : low' = low + start) (hcarry : 2 ^ 32 ≤ low')
    (hlt : low' < 2 ^ 33) : (m + 1) * 2 ^ 32 + low' % 2 ^ 32 = position + start := by
  have hwrap : low' % 2 ^ 32 + 2 ^ 32 = low' := by omega
  rw [Nat.mod_eq_of_lt hlow] at h
  linarith

/-- A symbol moves the position to where its part begins; a carry goes through the bytes that are
not yet written. -/
theorem Holds.narrow (h : Holds out rc n position) (hroom : rc.Room width)
    {rc' : RangeEncoder ι} (hlow : rc'.low.toNat = rc.low.toNat + start)
    (hcache : rc'.cache = rc.cache) (hsize : rc'.cacheSize = rc.cacheSize)
    (hpart : start + part ≤ width) (hpos : 0 < part) :
    Holds out rc' n (position + start) ∧ rc'.Room part := by
  have hroom' : rc'.Room part := by
    unfold Room at *
    rw [hcache, hlow]
    exact Nat.le_trans (by omega) hroom
  obtain ⟨turns, hturns⟩ : ∃ turns, rc.cacheSize.toNat = turns + 1 :=
    ⟨_, (Nat.succ_pred_eq_of_pos h.cacheSize).symm⟩
  have hlt : rc'.low.toNat < 2 ^ 33 := by
    have hready := hroom'.ready.1
    omega
  have hlength := h.length
  have hposition := h.position
  rw [List.length_append, pending, emission_length] at hlength
  refine ⟨⟨by rw [hsize]; exact h.cacheSize, ?_, ?_⟩, hroom'⟩
  · rw [List.length_append, pending, emission_length, hsize, hlength]
  · by_cases hsame : rc'.high = rc.high
    · have hcarry := congrArg UInt8.toNat hsame
      rw [high_toNat hlt, high_toNat (by omega)] at hcarry
      rw [pending, hsame, hcache, hsize, ← pending]
      omega
    · have hone : 2 ^ 32 ≤ rc'.low.toNat := by
        by_contra hnot
        exact hsame (by rw [high_eq_zero (by omega), high_eq_zero (by omega)])
      have hzero : rc.low.toNat < 2 ^ 32 := by
        by_contra hnot
        exact hsame (by rw [high_eq_one hone hlt, high_eq_one (by omega) (by omega)])
      have hbyte : rc.cache ≠ 0xFF := by
        rintro hcache'
        unfold Room at hroom'
        rw [if_pos (hcache.trans hcache')] at hroom'
        omega
      have hsucc : (rc.cache + 1).toNat = rc.cache.toNat + 1 := by
        have hne : rc.cache.toNat ≠ 255 := fun heq => hbyte (UInt8.toNat_inj.mp heq)
        have hcachelt := rc.cache.toNat_lt
        rw [UInt8.toNat_add]
        show (rc.cache.toNat + 1) % 2 ^ 8 = _
        omega
      rw [pending, high_eq_zero hzero, hturns] at hposition
      rw [pending, high_eq_one hone hlt, hcache, hsize, hturns]
      have hcarry := number_carry (digits out) rc.cache.toNat turns (show 1 < 256 by decide)
      have hold : digits (out ++ emission 0 rc.cache (turns + 1)) =
          digits out ++ rc.cache.toNat :: List.replicate turns (256 - 1) := by
        simp [digits, emission]
      have hnew : digits (out ++ emission 1 rc.cache (turns + 1)) =
          digits out ++ (rc.cache.toNat + 1) :: List.replicate turns 0 := by
        rw [← hsucc]
        simp [digits, emission]
      rw [hold] at hposition
      rw [hnew, hcarry]
      exact position_carry hposition hzero hlow hone hlt

end Narrow

section Shift
variable {n position width : ℕ}

theorem shiftLeft_eight_toNat (a : UInt64) : (a <<< 8).toNat = a.toNat * 256 % 2 ^ 64 := by
  rw [UInt64.toNat_shiftLeft, Nat.shiftLeft_eq]
  rfl

theorem next_toNat (low : UInt64) :
    ((low &&& 0x00FFFFFF) <<< 8).toNat = low.toNat % 2 ^ 24 * 256 := by
  have hmask : (0x00FFFFFF : UInt64).toNat = 2 ^ 24 - 1 := rfl
  rw [shiftLeft_eight_toNat, UInt64.toNat_and, hmask, Nat.and_two_pow_sub_one_eq_mod,
    Nat.mod_eq_of_lt]
  omega

/-- A byte goes from `low` behind the others. -/
theorem position_shift {m low byte : ℕ} (h : m * 2 ^ 32 + low % 2 ^ 32 = position)
    (hbyte : low / 2 ^ 24 % 256 = byte) :
    (m * 256 + byte) * 2 ^ 32 + low % 2 ^ 24 * 256 % 2 ^ 32 = position * 256 := by
  have hsplit : low % 2 ^ 32 = low / 2 ^ 24 % 256 * 2 ^ 24 + low % 2 ^ 24 := by omega
  have hrest : low % 2 ^ 24 * 256 % 2 ^ 32 = low % 2 ^ 24 * 256 := by omega
  rw [hsplit, hbyte] at h
  rw [hrest, ← h]
  ring

theorem settled_iff (h : rc.low.toNat < 2 ^ 33) :
    (rc.low.toUInt32 < 0xFF000000 || (rc.low >>> 32).toUInt32 ≠ 0) = true ↔ rc.Settled := by
  have hshift : (rc.low >>> 32).toUInt32.toNat = rc.low.toNat / 2 ^ 32 := by
    rw [UInt64.toNat_toUInt32, UInt64.toNat_shiftRight, Nat.shiftRight_eq_div_pow]
    show rc.low.toNat / 2 ^ 32 % 2 ^ 32 = _
    omega
  have hne : (rc.low >>> 32).toUInt32 ≠ 0 ↔ 2 ^ 32 ≤ rc.low.toNat := by
    rw [Ne, ← UInt32.toNat_inj, hshift]
    show ¬ _ = 0 ↔ _
    omega
  have hlt : rc.low.toUInt32 < 0xFF000000 ↔ rc.low.toNat % 2 ^ 32 < 0xFF000000 := by
    rw [UInt32.lt_iff_toNat_lt, UInt64.toNat_toUInt32]
    rfl
  unfold Settled
  rw [Bool.or_eq_true, decide_eq_true_iff, decide_eq_true_iff, hne, hlt]

/-- What `rc_shift_low` leaves untouched. -/
structure Kept (rc rc' : RangeEncoder ι) : Prop where
  range : rc'.range = rc.range
  symbols : rc'.symbols = rc.symbols
  pos : rc'.pos = rc.pos

/-- `rc_shift_low` where the output became full: nothing is lost. -/
structure Interrupted (rc rc' : RangeEncoder ι) (out bytes : Bytes) (n position width space : ℕ) :
    Prop where
  kept : Kept rc rc'
  holds : Holds (out ++ bytes) rc' n position
  ready : rc'.Ready width
  low : rc'.low = rc.low
  length : bytes.length = space

/-- `rc_shift_low` where it came to its end. -/
structure Shifted (rc rc' : RangeEncoder ι) (out bytes : Bytes) (n position width space : ℕ) :
    Prop where
  kept : Kept rc rc'
  holds : Holds (out ++ bytes) rc' (n + 1) (position * 256)
  room : rc'.Room (width * 256)
  low : rc'.low.toNat = rc.low.toNat % 2 ^ 24 * 256
  length_le : bytes.length ≤ space
  pending : rc.Settled → rc'.pending = [(rc.low >>> 24).toUInt8]

theorem rcShiftLow_settled (h : Holds out rc n position) (hready : rc.Ready width)
    (hn : n + 1 < 2 ^ 64) (hwidth : 0 < width) (hwidth' : width ≤ 2 ^ 24) (hsettled : rc.Settled)
    (room : ℕ) :
    ((rc.rcShiftLow room).1 = true ∧ Interrupted rc (rc.rcShiftLow room).2.1 out
        (rc.rcShiftLow room).2.2 n position width room) ∨
      (rc.rcShiftLow room).1 = false ∧ Shifted rc (rc.rcShiftLow room).2.1 out
        (rc.rcShiftLow room).2.2 n position width room := by
  have hlt : rc.low.toNat < 2 ^ 33 := by
    have hle := hready.1
    omega
  have hlength := h.length
  have hposition := h.position
  rw [List.length_append, pending, emission_length] at hlength
  have hsize : (rc.cacheSize - 1).toNat + 1 = rc.cacheSize.toNat := by
    have hpos := h.cacheSize
    rw [UInt64.toNat_sub_of_le]
    · show rc.cacheSize.toNat - 1 + 1 = _
      omega
    · rw [UInt64.le_iff_toNat_le]
      exact hpos
  have hemits : Emits (emitLoop rc.high rc.cacheSize.toNat rc.cache room) rc.high rc.cache
      rc.cacheSize.toNat room := emitLoop_emits rc.high rc.cache room (by omega)
  have hshift : rc.rcShiftLow room = (let e := emitLoop rc.high rc.cacheSize.toNat rc.cache room
      if e.full then (true, { rc with cache := e.cache, cacheSize := e.cacheSize }, e.out)
      else (false, { rc with
        low := (rc.low &&& 0x00FFFFFF) <<< 8
        cacheSize := e.cacheSize + 1
        cache := (rc.low >>> 24).toUInt8 }, e.out)) := by
    unfold rcShiftLow
    simp only [(settled_iff hlt).mpr hsettled, if_true, hsize, high]
    rfl
  obtain ⟨e, he⟩ : ∃ e, emitLoop rc.high rc.cacheSize.toNat rc.cache room = e := ⟨_, rfl⟩
  rw [he] at hshift hemits
  cases hfull : e.full with
  | true =>
    simp only [hfull, if_true] at hshift
    rw [hshift]
    obtain ⟨hroom, hpos⟩ := hemits.full hfull
    refine .inl ⟨rfl, ⟨rfl, rfl, rfl⟩, ⟨hpos, ?_, ?_⟩, ⟨hready.1, .inl hsettled⟩, rfl, hroom⟩
    · rw [List.append_assoc]
      show (out ++ (e.out ++ emission rc.high e.cache e.cacheSize.toNat)).length = n
      rw [hemits.out, List.length_append, emission_length, hlength]
    · rw [List.append_assoc]
      show number 256 (digits (out ++ (e.out ++ emission rc.high e.cache e.cacheSize.toNat))) *
        2 ^ 32 + rc.low.toNat % 2 ^ 32 = position
      rw [hemits.out, ← pending, hposition]
  | false =>
    simp only [hfull, Bool.false_eq_true, if_false] at hshift
    have hzero := hemits.done hfull
    have hout : e.out = rc.pending := by
      have hall := hemits.out
      rw [hzero] at hall
      exact (List.append_nil _).symm.trans hall
    have hbyte : (rc.low >>> 24).toUInt8.toNat = rc.low.toNat / 2 ^ 24 % 256 := by
      rw [UInt64.toNat_toUInt8, UInt64.toNat_shiftRight, Nat.shiftRight_eq_div_pow]
      rfl
    obtain ⟨rc', hrc⟩ : ∃ rc' : RangeEncoder ι, rc' = { rc with
        low := (rc.low &&& 0x00FFFFFF) <<< 8
        cacheSize := e.cacheSize + 1
        cache := (rc.low >>> 24).toUInt8 } := ⟨_, rfl⟩
    rw [← hrc] at hshift
    rw [hshift]
    dsimp only
    have hlow : rc'.low.toNat = rc.low.toNat % 2 ^ 24 * 256 := by
      rw [hrc]
      exact next_toNat rc.low
    have hone : rc'.cacheSize.toNat = 1 := by
      rw [hrc]
      show (e.cacheSize + 1).toNat = 1
      rw [hzero]
      rfl
    have hpending : rc'.pending = [(rc.low >>> 24).toUInt8] := by
      have hhigh : rc'.high = 0 := high_eq_zero (by omega)
      rw [pending, hone, hhigh, hrc]
      simp [emission]
    refine .inr ⟨rfl, ⟨by rw [hrc], by rw [hrc], by rw [hrc]⟩, ⟨by omega, ?_, ?_⟩, ?_, hlow,
      hemits.length_le, fun _ => hpending⟩
    · rw [hpending, hout, List.length_append, h.length, List.length_singleton]
    · rw [hpending, hout, digits_append, number_append, hlow]
      have hlast : number 256 (digits [(rc.low >>> 24).toUInt8]) =
          rc.low.toNat / 2 ^ 24 % 256 := by
        rw [← hbyte]
        exact number_singleton _
      rw [hlast, digits_length, List.length_singleton, pow_one]
      exact position_shift hposition rfl
    · have hle := hready.1
      have hcache : rc'.cache.toNat = rc.low.toNat / 2 ^ 24 % 256 := by
        rw [hrc]
        exact hbyte
      unfold Room
      rw [hlow]
      split_ifs with hff
      · rw [hff] at hcache
        have hones : rc.low.toNat / 2 ^ 24 % 256 = 255 := hcache.symm
        unfold Settled at hsettled
        omega
      · omega

theorem rcShiftLow_unsettled (h : Holds out rc n position) (hready : rc.Ready width)
    (hn : n + 1 < 2 ^ 64) (hwidth : 0 < width) (hwidth' : width ≤ 2 ^ 24) (hsettled : ¬ rc.Settled)
    (room : ℕ) : (rc.rcShiftLow room).1 = false ∧ Shifted rc (rc.rcShiftLow room).2.1 out
      (rc.rcShiftLow room).2.2 n position width room := by
  have hlt : rc.low.toNat < 2 ^ 33 := by
    have hle := hready.1
    omega
  have hlength := h.length
  have hposition := h.position
  have hroom : rc.Room width := hready.2.resolve_left hsettled
  have hnot := hsettled
  have hfalse : ¬ (rc.low.toUInt32 < 0xFF000000 || (rc.low >>> 32).toUInt32 ≠ 0) = true :=
    fun hif => hsettled ((settled_iff hlt).mp hif)
  unfold Settled at hsettled
  rw [List.length_append, pending, emission_length] at hlength
  obtain ⟨turns, hturns⟩ : ∃ turns, rc.cacheSize.toNat = turns + 1 :=
    ⟨_, (Nat.succ_pred_eq_of_pos h.cacheSize).symm⟩
  obtain ⟨rc', hrc⟩ : ∃ rc' : RangeEncoder ι, rc' = { rc with
      low := (rc.low &&& 0x00FFFFFF) <<< 8
      cacheSize := rc.cacheSize + 1 } := ⟨_, rfl⟩
  have hshift : rc.rcShiftLow room = (false, rc', []) := by
    unfold rcShiftLow
    rw [if_neg hfalse, hrc]
  rw [hshift]
  dsimp only
  have hlow : rc'.low.toNat = rc.low.toNat % 2 ^ 24 * 256 := by
    rw [hrc]
    exact next_toNat rc.low
  have hsize : rc'.cacheSize.toNat = rc.cacheSize.toNat + 1 := by
    rw [hrc]
    show (rc.cacheSize + 1).toNat = _
    rw [UInt64.toNat_add]
    show (rc.cacheSize.toNat + 1) % 2 ^ 64 = _
    omega
  have hpending : rc'.pending = rc.pending ++ [0xFF] := by
    have hhigh : rc.high = 0 := high_eq_zero (by omega)
    have hhigh' : rc'.high = 0 := high_eq_zero (by omega)
    rw [pending, pending, hsize, hturns, hhigh, hhigh', hrc]
    simp [emission, List.replicate_succ']
  refine ⟨rfl, ⟨by rw [hrc], by rw [hrc], by rw [hrc]⟩, ⟨by omega, ?_, ?_⟩, ?_, hlow,
    Nat.zero_le _, fun hsettled' => absurd hsettled' hnot⟩
  · rw [List.append_nil, hpending, ← List.append_assoc, List.length_append, h.length,
      List.length_singleton]
  · have hlast : number 256 (digits [0xFF]) = 255 := number_singleton 255
    rw [List.append_nil, hpending, ← List.append_assoc, digits_append, number_append, hlow, hlast,
      digits_length, List.length_singleton, pow_one]
    exact position_shift hposition (by omega)
  · have hcache : rc'.cache = rc.cache := by rw [hrc]
    unfold Room at *
    rw [hlow, hcache]
    split_ifs at hroom ⊢
    · omega
    · omega

theorem rcShiftLow_spec (h : Holds out rc n position) (hready : rc.Ready width)
    (hn : n + 1 < 2 ^ 64) (hwidth : 0 < width) (hwidth' : width ≤ 2 ^ 24) (room : ℕ) :
    ((rc.rcShiftLow room).1 = true ∧ Interrupted rc (rc.rcShiftLow room).2.1 out
        (rc.rcShiftLow room).2.2 n position width room) ∨
      (rc.rcShiftLow room).1 = false ∧ Shifted rc (rc.rcShiftLow room).2.1 out
        (rc.rcShiftLow room).2.2 n position width room := by
  by_cases hsettled : rc.Settled
  · exact rcShiftLow_settled h hready hn hwidth hwidth' hsettled room
  · exact .inr (rcShiftLow_unsettled h hready hn hwidth hwidth' hsettled room)

end Shift

end RangeEncoder

end Lzma
