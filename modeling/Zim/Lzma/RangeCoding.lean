import Zim.Lzma.RangeEncoding

/-! Runs of the range encoder over symbols that are put in between, and the round trip. -/
namespace Lzma
open Cxx RangeCode
namespace RangeEncoder
variable {ι : Type} {rc : RangeEncoder ι} {out : Bytes} {steps : List Step} {n total : ℕ}

/-- With the steps that are left, the position that the encoder holds leads to `total`, of `n`
digits. -/
def Leads (out : Bytes) (rc : RangeEncoder ι) (steps : List Step) (n total : ℕ) : Prop :=
  ∃ m position, Holds out rc m position ∧ m + scales steps = n ∧
    position * 256 ^ scales steps + RangeCode.position 256 steps = total

theorem Holds.congr {rc' : RangeEncoder ι} {m position : ℕ} (h : Holds out rc m position)
    (hlow : rc'.low = rc.low) (hcache : rc'.cache = rc.cache)
    (hsize : rc'.cacheSize = rc.cacheSize) : Holds out rc' m position := by
  have hpending : rc'.pending = rc.pending := by
    rw [pending, pending, high, high, hlow, hcache, hsize]
  refine ⟨?_, ?_, ?_⟩
  · rw [hsize]
    exact h.cacheSize
  · rw [hpending]
    exact h.length
  · rw [hpending, hlow]
    exact h.position

theorem Leads.interrupted {rc' : RangeEncoder ι} {bytes : Bytes} (h : Leads out rc steps n total)
    (hholds : ∀ m position, Holds out rc m position → Holds (out ++ bytes) rc' m position) :
    Leads (out ++ bytes) rc' steps n total := by
  obtain ⟨m, position, hm, hrest⟩ := h
  exact ⟨m, position, hholds m position hm, hrest⟩

theorem Leads.scale {rc' : RangeEncoder ι} {bytes : Bytes}
    (h : Leads out rc (.scale :: steps) n total)
    (hholds : ∀ m position, Holds out rc m position →
      Holds (out ++ bytes) rc' (m + 1) (position * 256)) :
    Leads (out ++ bytes) rc' steps n total := by
  obtain ⟨m, position, hm, hn, htotal⟩ := h
  refine ⟨m + 1, position * 256, hholds m position hm, ?_, ?_⟩
  · rw [← hn, scales]
    omega
  · rw [← htotal, scales, RangeCode.position, pow_succ', Nat.mul_assoc]

theorem Leads.narrow {rc' : RangeEncoder ι} {start part : ℕ}
    (h : Leads out rc (.narrow start part :: steps) n total)
    (hholds : ∀ m position, Holds out rc m position → Holds out rc' m (position + start)) :
    Leads out rc' steps n total := by
  obtain ⟨m, position, hm, hn, htotal⟩ := h
  refine ⟨m, position + start, hholds m position hm, hn, ?_⟩
  rw [← htotal, scales, RangeCode.position, Nat.add_mul, Nat.add_assoc]

theorem Leads.bound (h : Leads out rc steps n total) {m position : ℕ}
    (hholds : Holds out rc m position) : m ≤ n := by
  obtain ⟨m', position', hm', hn, -⟩ := h
  have heq : m = m' := hholds.length.symm.trans hm'.length
  omega

/-- What the normalization in front of a symbol leaves. -/
theorem rcNormalize_leads
    (h : Leads out rc (normalizeSteps rc.range ++ steps) n total) (hn : n + 1 < 2 ^ 64)
    (hwide : Wide rc.range) (hready : rc.Ready rc.range.toNat)
    (hroom : 2 ^ 24 ≤ rc.range.toNat → rc.Room rc.range.toNat) (room : ℕ) :
    ((rc.rcNormalize room).1 = true ∧ Kept rc (rc.rcNormalize room).2.1 ∧
      (rc.rcNormalize room).2.1.Ready rc.range.toNat ∧ rc.range.toNat < 2 ^ 24 ∧
      (rc.rcNormalize room).2.2.length = room ∧
      Leads (out ++ (rc.rcNormalize room).2.2) (rc.rcNormalize room).2.1
        (normalizeSteps rc.range ++ steps) n total) ∨
    (rc.rcNormalize room).1 = false ∧ (rc.rcNormalize room).2.1.range = normalized rc.range ∧
      (rc.rcNormalize room).2.1.symbols = rc.symbols ∧ (rc.rcNormalize room).2.1.pos = rc.pos ∧
      (rc.rcNormalize room).2.1.Room (normalized rc.range).toNat ∧
      (rc.rcNormalize room).2.2.length ≤ room ∧
      Leads (out ++ (rc.rcNormalize room).2.2) (rc.rcNormalize room).2.1 steps n total := by
  have hleads := h
  obtain ⟨m, position, hholds, -⟩ := hleads
  have hm := h.bound hholds
  unfold Wide at hwide
  unfold rcNormalize
  by_cases hlt : rc.range.toNat < 2 ^ 24
  · have htop := (lt_rcTopValue rc.range).mpr hlt
    rw [if_pos htop]
    have hspec (m' position' : ℕ) (hm' : Holds out rc m' position') :=
      rcShiftLow_spec hm' hready (by have hle := h.bound hm'; omega)
        (show 0 < rc.range.toNat by omega) (by omega) room
    obtain ⟨hfull, hinterrupted⟩ | ⟨hfull, hshifted⟩ := hspec m position hholds
    · left
      simp only [hfull, if_true]
      refine ⟨trivial, hinterrupted.kept, hinterrupted.ready, hlt, hinterrupted.length, ?_⟩
      apply h.interrupted
      intro m' position' hm'
      obtain ⟨-, hsame⟩ | ⟨hnot, -⟩ := hspec m' position' hm'
      · exact hsame.holds
      · rw [hfull] at hnot
        cases hnot
    · right
      have hnormalized : (normalized rc.range).toNat = rc.range.toNat * 256 := by
        rw [normalized_toNat, if_pos hlt]
      simp only [hfull, Bool.false_eq_true, if_false]
      refine ⟨trivial, ?_, hshifted.kept.symbols, hshifted.kept.pos, ?_, hshifted.length_le, ?_⟩
      · rw [hshifted.kept.range, normalized, if_pos htop]
      · rw [hnormalized]
        exact hshifted.room
      · rw [normalizeSteps, if_pos htop] at h
        apply h.scale
        intro m' position' hm'
        obtain ⟨hnot, -⟩ | ⟨-, hsame⟩ := hspec m' position' hm'
        · rw [hfull] at hnot
          cases hnot
        · exact hsame.holds.congr rfl rfl rfl
  · have htop : ¬ rc.range < rcTopValue := fun hlt' => hlt ((lt_rcTopValue rc.range).mp hlt')
    have hnormalized : normalized rc.range = rc.range := by rw [normalized, if_neg htop]
    rw [normalizeSteps, if_neg htop] at h
    rw [if_neg htop, hnormalized]
    refine .inr ⟨rfl, rfl, rfl, rfl, hroom (by omega), Nat.zero_le _, ?_⟩
    rw [List.append_nil]
    exact h

/-- The narrowing of the encoder is that of the range code. -/
theorem rcNarrow_spec (rc : RangeEncoder ι) (probs : ι → Probability) {symbol : Symbol ι}
    {width : ℕ} (hroom : rc.Room width) (hflush : symbol ≠ .flush)
    (hstart : (symbol.start rc.range probs).toNat ≤ width) :
    (rc.rcNarrow probs symbol).low.toNat =
        rc.low.toNat + (symbol.start rc.range probs).toNat ∧
      (rc.rcNarrow probs symbol).range = symbol.part rc.range probs ∧
      (rc.rcNarrow probs symbol).cache = rc.cache ∧
      (rc.rcNarrow probs symbol).cacheSize = rc.cacheSize := by
  have hle := hroom.ready.1
  have hadd (a : UInt32) (ha : a.toNat ≤ width) :
      (rc.low + a.toUInt64).toNat = rc.low.toNat + a.toNat := by
    rw [UInt64.toNat_add, UInt32.toNat_toUInt64, Nat.mod_eq_of_lt]
    omega
  cases symbol with
  | bit prob bit =>
    cases bit with
    | false => exact ⟨rfl, rfl, rfl, rfl⟩
    | true => exact ⟨hadd _ hstart, rfl, rfl, rfl⟩
  | direct bit =>
    cases bit with
    | false => exact ⟨rfl, rfl, rfl, rfl⟩
    | true => exact ⟨hadd _ hstart, rfl, rfl, rfl⟩
  | flush => exact absurd rfl hflush

theorem rcNarrow_symbols (rc : RangeEncoder ι) (probs : ι → Probability) (symbol : Symbol ι) :
    (rc.rcNarrow probs symbol).symbols = rc.symbols := by
  cases symbol with
  | bit prob bit => cases bit <;> rfl
  | direct bit => cases bit <;> rfl
  | flush => rfl

theorem rcShiftLow_queue (rc : RangeEncoder ι) (room : ℕ) :
    (rc.rcShiftLow room).2.1.symbols = rc.symbols ∧ (rc.rcShiftLow room).2.1.pos = rc.pos := by
  unfold rcShiftLow
  dsimp only
  split_ifs <;> exact ⟨rfl, rfl⟩

theorem rcNormalize_queue (rc : RangeEncoder ι) (room : ℕ) :
    (rc.rcNormalize room).2.1.symbols = rc.symbols ∧ (rc.rcNormalize room).2.1.pos = rc.pos := by
  unfold rcNormalize
  dsimp only
  split_ifs
  · exact rcShiftLow_queue rc room
  · exact rcShiftLow_queue rc room
  · exact ⟨rfl, rfl⟩

/-- A call keeps the symbols until it has coded all of them. -/
theorem rcFlushLoop_symbols (rc : RangeEncoder ι) (probs : ι → Probability) (room : ℕ)
    (q : List (Symbol ι)) :
    (rcFlushLoop rc probs room q).rc.symbols = rc.symbols ∨
      (rcFlushLoop rc probs room q).rc.symbols = [] := by
  induction q generalizing rc room with
  | nil => exact .inr rfl
  | cons symbol q ih =>
    obtain ⟨hsymbols, -⟩ := rcShiftLow_queue rc room
    rw [rcFlushLoop]
    dsimp only
    split_ifs
    · exact .inl hsymbols
    · rw [← hsymbols]
      exact ih { (rc.rcShiftLow room).2.1 with pos := (rc.rcShiftLow room).2.1.pos + 1 } _

theorem rcEncodeLoop_symbols [DecidableEq ι] (rc : RangeEncoder ι) (probs : ι → Probability)
    (room : ℕ) (q : List (Symbol ι)) :
    (rcEncodeLoop rc probs room q).rc.symbols = rc.symbols ∨
      (rcEncodeLoop rc probs room q).rc.symbols = [] := by
  induction q generalizing rc probs room with
  | nil => exact .inr rfl
  | cons symbol q ih =>
    obtain ⟨hsymbols, -⟩ := rcNormalize_queue rc room
    rw [rcEncodeLoop]
    dsimp only
    split_ifs
    · exact .inl hsymbols
    · rw [← hsymbols]
      exact rcFlushLoop_symbols { (rc.rcNormalize room).2.1 with range := 0xFFFFFFFF } _ _ _
    · have hnarrow := rcNarrow_symbols (rc.rcNormalize room).2.1 probs symbol
      rw [← hsymbols, ← hnarrow]
      exact ih { (rc.rcNormalize room).2.1.rcNarrow probs symbol with
        pos := (rc.rcNormalize room).2.1.pos + 1 } _ _

theorem Fits.rcEncode [DecidableEq ι] {rc : RangeEncoder ι} (h : rc.Fits)
    (probs : ι → Probability) (room : ℕ) : (rc.rcEncode probs room).rc.Fits := by
  unfold Fits RangeEncoder.rcEncode
  obtain hsame | hnone := rcEncodeLoop_symbols rc probs room (rc.symbols.drop rc.pos)
  · rw [hsame]
    exact h
  · rw [hnone]
    exact Nat.zero_le _

/-- The symbols that are not yet coded. -/
def queue (rc : RangeEncoder ι) : List (Symbol ι) := rc.symbols.drop rc.pos

theorem drop_succ_of_cons {α : Type*} {l rest : List α} {a : α} {k : ℕ}
    (h : l.drop k = a :: rest) : l.drop (k + 1) = rest := by
  rw [← List.drop_drop, h]
  rfl

/-- In the case `RC_FLUSH`, with `left` of the five turns to go. -/
structure Flushing (out : Bytes) (rc : RangeEncoder ι) (left n total : ℕ) : Prop where
  holds : Holds out rc (n + (5 - left)) (total * 256 ^ (5 - left))
  ready : rc.Ready 1
  range : rc.range = 0xFFFFFFFF
  low : left < 5 → rc.low.toNat < 2 ^ 32 ∧ 256 ^ (5 - left) ∣ rc.low.toNat
  queue : rc.queue = List.replicate left .flush

/-- The last turn writes the last byte of the position. -/
theorem Flushing.last (h : Flushing out rc 1 n total) (hn : n + 6 < 2 ^ 64) {room : ℕ}
    (hfull : (rc.rcShiftLow room).1 = false) :
    (out ++ (rc.rcShiftLow room).2.2).length = n + 4 ∧
      number 256 (digits (out ++ (rc.rcShiftLow room).2.2)) = total := by
  obtain ⟨hlt, hdvd⟩ := h.low (by decide)
  have hzero : rc.low.toNat = 0 := Nat.eq_zero_of_dvd_of_lt hdvd hlt
  have hlow : rc.low = 0 := UInt64.toNat_inj.mp hzero
  have hsettled : rc.Settled := by
    unfold Settled
    omega
  obtain ⟨htrue, -⟩ | ⟨-, hshifted⟩ :=
    rcShiftLow_spec h.holds h.ready (by omega) Nat.one_pos (by decide) room
  · rw [hfull] at htrue
    cases htrue
  · have hpending := hshifted.pending hsettled
    rw [hlow] at hpending
    have hlength := hshifted.holds.length
    have hposition := hshifted.holds.position
    have hlow' := hshifted.low
    rw [hzero] at hlow'
    rw [hpending, List.length_append] at hlength
    rw [hpending, digits_append, number_append, hlow'] at hposition
    refine ⟨Nat.succ.inj hlength, ?_⟩
    have hlast : number 256 (digits [((0 : UInt64) >>> 24).toUInt8]) = 0 := number_singleton 0
    rw [hlast, digits_length, List.length_singleton] at hposition
    generalize number 256 (digits (out ++ (rc.rcShiftLow room).2.2)) = m at hposition
    omega

/-- A call in the case `RC_FLUSH` comes to its end with a reset encoder, or is left with fewer
turns to go. -/
theorem rcFlushLoop_flushing {left : ℕ} (hleft : left < 5)
    (h : Flushing out rc (left + 1) n total) (hn : n + 6 < 2 ^ 64) (probs : ι → Probability)
    (room : ℕ) :
    (rcFlushLoop rc probs room (List.replicate (left + 1) .flush)).out.length ≤ room ∧
    (((rcFlushLoop rc probs room (List.replicate (left + 1) .flush)).full = true ∧
        (rcFlushLoop rc probs room (List.replicate (left + 1) .flush)).out.length = room ∧
        ∃ left' < 5, Flushing
          (out ++ (rcFlushLoop rc probs room (List.replicate (left + 1) .flush)).out)
          (rcFlushLoop rc probs room (List.replicate (left + 1) .flush)).rc (left' + 1) n total) ∨
      (rcFlushLoop rc probs room (List.replicate (left + 1) .flush)).full = false ∧
        (rcFlushLoop rc probs room (List.replicate (left + 1) .flush)).rc = rcReset ∧
        (out ++ (rcFlushLoop rc probs room (List.replicate (left + 1) .flush)).out).length =
          n + 4 ∧
        number 256
          (digits (out ++ (rcFlushLoop rc probs room (List.replicate (left + 1) .flush)).out)) =
            total) := by
  induction left generalizing rc out room with
  | zero =>
    rw [List.replicate_succ, List.replicate_zero, rcFlushLoop]
    obtain ⟨hfull, hinterrupted⟩ | ⟨hfull, hshifted⟩ :=
      rcShiftLow_spec h.holds h.ready (by omega) Nat.one_pos (by decide) room
    · simp only [hfull, if_true]
      refine ⟨hinterrupted.length.le, .inl ⟨trivial, hinterrupted.length, 0, hleft,
        hinterrupted.holds, hinterrupted.ready, ?_, ?_, ?_⟩⟩
      · rw [hinterrupted.kept.range, h.range]
      · rw [hinterrupted.low]
        exact h.low
      · rw [RangeEncoder.queue, hinterrupted.kept.symbols, hinterrupted.kept.pos]
        exact h.queue
    · obtain ⟨hlength, hnumber⟩ := h.last hn hfull
      simp only [hfull, Bool.false_eq_true, if_false, rcFlushLoop, List.append_nil]
      exact ⟨hshifted.length_le, .inr ⟨trivial, trivial, hlength, hnumber⟩⟩
  | succ left ih =>
    rw [List.replicate_succ, rcFlushLoop]
    obtain ⟨hfull, hinterrupted⟩ | ⟨hfull, hshifted⟩ :=
      rcShiftLow_spec h.holds h.ready (by omega) Nat.one_pos (by decide) room
    · simp only [hfull, if_true]
      refine ⟨hinterrupted.length.le, .inl ⟨trivial, hinterrupted.length, left + 1, hleft,
        hinterrupted.holds, hinterrupted.ready, ?_, ?_, ?_⟩⟩
      · rw [hinterrupted.kept.range, h.range]
      · rw [hinterrupted.low]
        exact h.low
      · rw [RangeEncoder.queue, hinterrupted.kept.symbols, hinterrupted.kept.pos]
        exact h.queue
    · obtain ⟨rc', hrc⟩ : ∃ rc' : RangeEncoder ι, rc' =
          { (rc.rcShiftLow room).2.1 with pos := (rc.rcShiftLow room).2.1.pos + 1 } := ⟨_, rfl⟩
      have hcount : 5 - (left + 1) = 5 - (left + 1 + 1) + 1 := by omega
      have hflushing : Flushing (out ++ (rc.rcShiftLow room).2.2) rc' (left + 1) n total := by
        have hready : rc'.Room 1 := by
          rw [hrc]
          exact hshifted.room.mono (by decide)
        refine ⟨?_, hready.ready, ?_, fun _ => ⟨?_, ?_⟩, ?_⟩
        · rw [hcount, pow_succ, ← Nat.mul_assoc, hrc]
          exact hshifted.holds.congr rfl rfl rfl
        · rw [hrc]
          exact hshifted.kept.range.trans h.range
        · rw [hrc]
          show (rc.rcShiftLow room).2.1.low.toNat < 2 ^ 32
          rw [hshifted.low]
          omega
        · rw [hrc]
          show _ ∣ (rc.rcShiftLow room).2.1.low.toNat
          rw [hshifted.low, hcount, pow_succ]
          apply Nat.mul_dvd_mul_right
          by_cases hfive : left + 1 + 1 < 5
          · obtain ⟨hlt, hdvd⟩ := h.low hfive
            have hpow : (256 : ℕ) ^ (5 - (left + 1 + 1)) ∣ 2 ^ 24 := by
              rw [show (256 : ℕ) = 2 ^ 8 from rfl, ← pow_mul]
              exact Nat.pow_dvd_pow 2 (by omega)
            exact (Nat.dvd_mod_iff hpow).mpr hdvd
          · rw [show 5 - (left + 1 + 1) = 0 by omega, pow_zero]
            exact one_dvd _
        · rw [RangeEncoder.queue, hrc]
          show List.drop ((rc.rcShiftLow room).2.1.pos + 1) (rc.rcShiftLow room).2.1.symbols = _
          rw [hshifted.kept.symbols, hshifted.kept.pos]
          exact drop_succ_of_cons h.queue
      simp only [hfull, Bool.false_eq_true, if_false]
      rw [← hrc]
      obtain ⟨hle, hend⟩ := ih (by omega) hflushing (room - (rc.rcShiftLow room).2.2.length)
      have hout := hshifted.length_le
      rw [List.append_assoc] at hend
      constructor
      · rw [List.length_append]
        omega
      · obtain ⟨hfull', hlength', hleft'⟩ | hdone := hend
        · refine .inl ⟨hfull', ?_, hleft'⟩
          rw [List.length_append]
          omega
        · exact .inr hdone

variable [DecidableEq ι] {probs : ι → Probability}

/-- With the bytes written before, coding the given symbols leads to the position `total` of `n`
digits, with which only the flush is left. -/
structure Encodes (out : Bytes) (rc : RangeEncoder ι) (probs : ι → Probability)
    (symbols : List (Symbol ι)) (n total : ℕ) : Prop where
  wide : Wide rc.range
  balanced : ∀ i, Balanced (probs i)
  leads : Leads out rc (codeSteps rc.range probs symbols) n total
  ready : rc.Ready rc.range.toNat
  room : 2 ^ 24 ≤ rc.range.toNat → rc.Room rc.range.toNat

theorem Encodes.congr {rc' : RangeEncoder ι} {symbols : List (Symbol ι)}
    (h : Encodes out rc probs symbols n total) (hlow : rc'.low = rc.low)
    (hrange : rc'.range = rc.range) (hcache : rc'.cache = rc.cache)
    (hsize : rc'.cacheSize = rc.cacheSize) : Encodes out rc' probs symbols n total := by
  have hroom (width : ℕ) : rc'.Room width ↔ rc.Room width := by
    unfold Room
    rw [hlow, hcache]
  refine ⟨?_, h.balanced, ?_, ?_, ?_⟩
  · rw [hrange]
    exact h.wide
  · obtain ⟨m, position, hm, hrest⟩ := h.leads
    rw [hrange]
    exact ⟨m, position, hm.congr hlow hcache hsize, hrest⟩
  · have hready := h.ready
    unfold Ready Settled at *
    rw [hlow, hrange, hroom]
    exact hready
  · rw [hrange, hroom]
    exact h.room

/-- A call codes the symbols in front of a flush, or leaves the rest of them where the output became
full. -/
theorem rcEncodeLoop_encodes {q tail later : List (Symbol ι)} (hflush : .flush ∉ q)
    (hq : rc.queue = q ++ tail) (h : Encodes out rc probs (q ++ later) n total)
    (hn : n + 1 < 2 ^ 64) (room : ℕ) :
    (rcEncodeLoop rc probs room q).out.length ≤ room ∧
    (((rcEncodeLoop rc probs room q).full = true ∧
        (rcEncodeLoop rc probs room q).out.length = room ∧
        ∃ q', q' ≠ [] ∧ .flush ∉ q' ∧
          (rcEncodeLoop rc probs room q).rc.queue = q' ++ tail ∧
          Encodes (out ++ (rcEncodeLoop rc probs room q).out) (rcEncodeLoop rc probs room q).rc
            (rcEncodeLoop rc probs room q).probs (q' ++ later) n total) ∨
      (rcEncodeLoop rc probs room q).full = false ∧
        (rcEncodeLoop rc probs room q).rc.symbols = [] ∧
        (rcEncodeLoop rc probs room q).rc.pos = 0 ∧
        Encodes (out ++ (rcEncodeLoop rc probs room q).out) (rcEncodeLoop rc probs room q).rc
          (rcEncodeLoop rc probs room q).probs later n total) := by
  induction q generalizing rc probs out room with
  | nil =>
    rw [rcEncodeLoop, List.append_nil]
    exact ⟨Nat.zero_le _, .inr ⟨rfl, rfl, rfl, h.congr rfl rfl rfl rfl⟩⟩
  | cons symbol q ih =>
    have hne : symbol ≠ .flush := fun heq => hflush (heq ▸ List.mem_cons_self)
    have hrest : .flush ∉ q := fun hmem => hflush (List.mem_cons_of_mem _ hmem)
    have hleads := h.leads
    rw [List.cons_append, codeSteps] at hleads
    rw [rcEncodeLoop]
    obtain ⟨hfull, hkept, hready, hlt, hlength, hleads'⟩ |
        ⟨hfull, hrange, hsymbols, hpos, hroom, hlength, hleads'⟩ :=
      rcNormalize_leads hleads hn h.wide h.ready h.room room
    · simp only [hfull, if_true]
      have hqueue : (rc.rcNormalize room).2.1.queue = symbol :: q ++ tail := by
        rw [← hq, queue, hkept.symbols, hkept.pos, queue]
      refine ⟨hlength.le, .inl ⟨trivial, hlength, symbol :: q, List.cons_ne_nil _ _, hflush,
        hqueue, ?_, h.balanced, ?_, ?_, ?_⟩⟩
      · rw [hkept.range]
        exact h.wide
      · rw [hkept.range, List.cons_append, codeSteps]
        exact hleads'
      · rw [hkept.range]
        exact hready
      · rw [hkept.range]
        intro hge
        omega
    · obtain ⟨hpart, hwide⟩ := Symbol.part_spec (normalized_ge h.wide) h.balanced symbol
      have hbalanced := balanced_rcUpdate h.balanced symbol
      obtain ⟨hlow, hnarrow, hcache, hsize⟩ := rcNarrow_spec _ probs hroom hne
        (by rw [hrange]; omega)
      rw [hrange] at hlow hnarrow
      have hnext (m position : ℕ)
          (hm : Holds (out ++ (rc.rcNormalize room).2.2) (rc.rcNormalize room).2.1 m position) :=
        hm.narrow hroom hlow hcache hsize hpart (by unfold Wide at hwide; omega)
      have hroom' : ((rc.rcNormalize room).2.1.rcNarrow probs symbol).Room
          (symbol.part (normalized rc.range) probs).toNat := by
        obtain ⟨m, position, hm, -⟩ := hleads'
        exact (hnext m position hm).2
      obtain ⟨rc', hrc⟩ : ∃ rc' : RangeEncoder ι, rc' =
          { (rc.rcNormalize room).2.1.rcNarrow probs symbol with
            pos := (rc.rcNormalize room).2.1.pos + 1 } := ⟨_, rfl⟩
      have hkept : rc'.symbols = rc.symbols ∧ rc'.pos = rc.pos + 1 := by
        rw [hrc, hpos, ← hsymbols, rcNarrow_symbols]
        exact ⟨rfl, rfl⟩
      have hencodes : Encodes (out ++ (rc.rcNormalize room).2.2) rc'
          (rcUpdate probs symbol) (q ++ later) n total := by
        have hrange' : rc'.range = symbol.part (normalized rc.range) probs := by
          rw [hrc]
          exact hnarrow
        have hroom'' : rc'.Room rc'.range.toNat := by
          rw [hrange', hrc]
          exact hroom'
        refine ⟨?_, hbalanced, ?_, hroom''.ready, fun _ => hroom''⟩
        · rw [hrange']
          exact hwide
        · rw [hrange']
          apply hleads'.narrow
          intro m position hm
          rw [hrc]
          exact (hnext m position hm).1.congr rfl rfl rfl
      have hqueue : rc'.queue = q ++ tail := by
        rw [queue, hkept.1, hkept.2]
        exact drop_succ_of_cons hq
      simp only [hfull, Bool.false_eq_true, if_false, if_neg hne]
      rw [← hrc]
      obtain ⟨hle, hend⟩ := ih hrest hqueue hencodes (room - (rc.rcNormalize room).2.2.length)
      rw [List.append_assoc] at hend
      constructor
      · rw [List.length_append]
        omega
      · obtain ⟨hfull', hlength', hleft⟩ | hdone := hend
        · refine .inl ⟨hfull', ?_, hleft⟩
          rw [List.length_append]
          omega
        · exact .inr hdone

/-- The symbols in front of a flush are coded first. -/
theorem rcEncodeLoop_append {q : List (Symbol ι)} (hflush : .flush ∉ q)
    (rc : RangeEncoder ι) (probs : ι → Probability) (room : ℕ) (tail : List (Symbol ι)) :
    rcEncodeLoop rc probs room (q ++ tail) =
      (let e := rcEncodeLoop rc probs room q
      if e.full then e
      else
        let e' := rcEncodeLoop { e.rc with symbols := rc.symbols, pos := rc.pos + q.length } e.probs
          (room - e.out.length) tail
        { e' with out := e.out ++ e'.out }) := by
  induction q generalizing rc probs room with
  | nil => rfl
  | cons symbol q ih =>
    have hne : symbol ≠ .flush := fun heq => hflush (heq ▸ List.mem_cons_self)
    have hrest : .flush ∉ q := fun hmem => hflush (List.mem_cons_of_mem _ hmem)
    rw [List.cons_append, rcEncodeLoop, rcEncodeLoop]
    cases hfull : (rc.rcNormalize room).1 with
    | true => simp only [if_true]
    | false =>
      obtain ⟨hsymbols, hpos⟩ := rcNormalize_queue rc room
      have hcount : rc.pos + 1 + q.length = rc.pos + (q.length + 1) := by omega
      simp only [Bool.false_eq_true, if_false, if_neg hne, ih hrest, rcNarrow_symbols,
        hsymbols, hpos, List.length_cons, List.append_assoc, List.length_append]
      split_ifs
      · rfl
      · rw [Nat.sub_sub, hcount]

end RangeEncoder

end Lzma
