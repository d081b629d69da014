import Zim.Lzma.EncoderBits
import Zim.Lzma.EncoderQueue
import Zim.Lzma.LzDecoder

/-! The LZMA decoder writes what the encoder was given: symbol by symbol, and over a whole run of
symbols, whichever of them the encoder takes. -/
namespace Lzma
open Cxx Lz77

/-- Encoder and decoder are in front of the same symbol: they take the same probabilities for it,
and the same byte to compare with. -/
structure InStep (encoder : LzmaEncoder) (coder : LzmaDecoder) (dict : Dict) (data : Bytes)
    (position : ℕ) (loc : Local) : Prop where
  agrees : Agrees encoder loc
  posState : position &&& encoder.posMask.toNat = dict.pos &&& coder.posMask.toNat
  subcoder : literalSubcoder encoder.literalContextBits.toNat encoder.literalPosMask.toNat position
      (if position = 0 then 0 else (data[position - 1]?).getD 0) =
    literalSubcoder coder.literalContextBits.toNat coder.literalPosMask.toNat dict.pos
      (dict.dictGet 0)
  matchByte : encoder.state.isLiteralState = false →
    (data[position - encoder.rep0.toNat - 1]?).getD 0 = dict.dictGet encoder.rep0

section Symbols
variable {encoder : LzmaEncoder} {coder : LzmaDecoder} {noEopm : Bool} {dict : Dict} {data : Bytes}
  {position : ℕ} {loc : Local}

/-- The bit in front of a symbol. -/
theorem isMatch_writes (h : InStep encoder coder dict data position loc)
    (hroom : ¬ (noEopm = true ∧ dict.pos = dict.limit)) (bit : Bool) :
    Writes coder noEopm dict encoder.rc
      (encoder.rc.rcBit (.isMatch encoder.state (position &&& encoder.posMask.toNat)) bit)
      (.label { loc with sequence := .isMatch })
      (if bit = false then
        let probs := .literal (literalSubcoder coder.literalContextBits.toNat
          coder.literalPosMask.toNat dict.pos (dict.dictGet 0))
        let loc := { loc with sequence := .isMatch, probs, symbol := 1 }
        if loc.state.isLiteralState then loc.goto (.literal 0)
        else
          { loc with
            len := (dict.dictGet loc.rep0).toUInt32 <<< 1
            offset := 0x100 }.goto (.literalMatched 0)
      else loc.goto .isRep) := by
  rw [h.posState, ← h.agrees.state]
  have hact : { coder with loc := { loc with sequence := .isMatch } }.action noEopm dict =
      .bit (.isMatch loc.state (dict.pos &&& coder.posMask.toNat)) _ := if_neg hroom
  exact Writes.bit encoder.rc bit hact

theorem toUInt8_node (byte : UInt8) {symbol : UInt32} (h : symbol.toNat = 256 + byte.toNat) :
    symbol.toUInt8 = byte := by
  apply UInt8.toNat_inj.mp
  rw [UInt32.toNat_toUInt8, h, Nat.add_mod_left, Nat.mod_eq_of_lt byte.toNat_lt]

theorem literalDone_writes {rc rc' : RangeEncoder Prob} {a : Next} {loc' : Local} (byte : UInt8)
    (hwrites : Writes coder noEopm dict rc rc' a loc'.literalDone) (hagrees : Agrees encoder loc')
    (hsymbol : loc'.symbol.toNat = 256 + byte.toNat) :
    ∃ loc'', Writes coder noEopm dict rc rc' a (.label loc'') ∧
      Agrees { encoder with rc := rc', state := encoder.state.updateLiteral } loc'' ∧
      loc''.sequence = .literalWrite ∧ loc''.symbol.toUInt8 = byte :=
  ⟨_, hwrites, ⟨(Local.nextState_eq _).trans (congrArg _ hagrees.state), hagrees.rep0, hagrees.rep1,
    hagrees.rep2, hagrees.rep3⟩, rfl, toUInt8_node byte hsymbol⟩

theorem literal_writes (h : InStep encoder coder dict data position loc)
    (hroom : ¬ (noEopm = true ∧ dict.pos = dict.limit)) (len : UInt32) :
    ∃ loc', Writes coder noEopm dict encoder.rc
        (encoder.encodeSymbol data 0xFFFFFFFF len position).rc
        (.label { loc with sequence := .isMatch }) (.label loc') ∧
      Agrees (encoder.encodeSymbol data 0xFFFFFFFF len position) loc' ∧
      loc'.sequence = .literalWrite ∧ loc'.symbol.toUInt8 = (data[position]?).getD 0 := by
  have hmatch := isMatch_writes h hroom false
  rw [if_pos rfl] at hmatch
  dsimp only at hmatch
  unfold LzmaEncoder.encodeSymbol
  rw [if_pos rfl]
  unfold LzmaEncoder.literal
  dsimp only
  rw [h.subcoder]
  generalize literalSubcoder coder.literalContextBits.toNat coder.literalPosMask.toNat dict.pos
    (dict.dictGet 0) = subcoder at hmatch ⊢
  generalize hbyte : (data[position]?).getD 0 = byte
  have hbyteNat : byte.toUInt32.toNat = byte.toNat := UInt8.toNat_toUInt32 byte
  have hlt := byte.toNat_lt
  by_cases hlit : encoder.state.isLiteralState = true
  · rw [if_pos (h.agrees.state.symm ▸ hlit)] at hmatch
    rw [if_pos hlit]
    have htree : Writes coder noEopm dict _ _ _ _ := Writes.tree
      (encoder.rc.rcBit (.isMatch encoder.state (position &&& encoder.posMask.toNat)) false)
      (fun s k => { loc with sequence := .literal k, probs := .literal subcoder, symbol := s })
      (fun s => { loc with
        sequence := .literal 7, probs := .literal subcoder, symbol := s }.literalDone)
      (show 7 ≤ 7 by decide) (fun s k => rfl) (fun s k bit hk => if_pos hk) (fun s bit => rfl)
      (show byte.toUInt32.toNat < 2 ^ 8 by omega)
    have hnode : (UInt32.ofNat (2 ^ (7 + 1)) + byte.toUInt32).toNat = 256 + byte.toNat := by
      rw [UInt32.toNat_add, hbyteNat]
      show (256 + byte.toNat) % 2 ^ 32 = _
      omega
    have hwrites := hmatch.trans htree
    exact literalDone_writes byte hwrites
      ⟨h.agrees.state, h.agrees.rep0, h.agrees.rep1, h.agrees.rep2, h.agrees.rep3⟩ hnode
  · rw [if_neg (h.agrees.state.symm ▸ hlit)] at hmatch
    have hcompare : dict.dictGet encoder.rep0 = dict.dictGet loc.rep0 := by rw [h.agrees.rep0]
    rw [if_neg hlit, h.matchByte (by simpa using hlit), hcompare]
    have hsymbol : (byte.toUInt32 + (1 : UInt32) <<< 8).toNat = 256 + byte.toNat := by
      rw [UInt32.toNat_add, hbyteNat]
      show (byte.toNat + 256) % 2 ^ 32 = _
      omega
    have hfirst : (byte.toUInt32 + (1 : UInt32) <<< 8) >>> 8 = 1 := by
      apply UInt32.toNat_inj.mp
      rw [UInt32.toNat_shiftRight, hsymbol]
      show (256 + byte.toNat) >>> 8 = 1
      rw [Nat.shiftRight_eq_div_pow]
      omega
    obtain ⟨loc', hwrites, hagrees, hlast⟩ := literalMatched_writes coder noEopm
      dict (j := 7) (k := 0) loc subcoder 0x100
      (dict.dictGet loc.rep0).toUInt32 (byte.toUInt32 + (1 : UInt32) <<< 8)
      (encoder.rc.rcBit (.isMatch encoder.state (position &&& encoder.posMask.toNat)) false) rfl
      (.inr rfl) (by rw [hsymbol]; omega) h.agrees
    rw [hfirst] at hwrites
    have hwrites' := hmatch.trans hwrites
    exact literalDone_writes byte hwrites' hagrees (by rw [hlast, hsymbol]; omega)

/-- A match, up to the check of its distance. -/
theorem matched_writes (h : InStep encoder coder dict data position loc)
    (hroom : ¬ (noEopm = true ∧ dict.pos = dict.limit)) {len : UInt32} (distance : UInt32)
    (hlen : 2 ≤ len.toNat ∧ len.toNat ≤ 273) {matched : LzmaEncoder}
    (hmatched : matched = { encoder with
      rc := (encoder.rc.rcBit (.isMatch encoder.state (position &&& encoder.posMask.toNat))
        true).rcBit (.isRep encoder.state) false }.matched (position &&& encoder.posMask.toNat)
          distance len) :
    ∃ loc', Writes coder noEopm dict encoder.rc matched.rc
        (.label { loc with sequence := .isMatch }) (loc'.alignDone noEopm dict) ∧
      Agrees matched loc' ∧ loc'.len = len := by
  have hmatch := isMatch_writes h hroom true
  rw [if_neg (by decide)] at hmatch
  rw [hmatched]
  unfold LzmaEncoder.matched
  dsimp only
  rw [h.posState, ← h.agrees.state] at *
  have hrep : Writes coder noEopm dict _ (_ : RangeEncoder Prob)
      (.label { loc with sequence := .isRep }) _ := Writes.bit
    (encoder.rc.rcBit (.isMatch loc.state (dict.pos &&& coder.posMask.toNat)) true) false rfl
  rw [if_pos rfl] at hrep
  obtain ⟨symbol, s, hlength⟩ := length_writes coder noEopm dict
    ((encoder.rc.rcBit (.isMatch loc.state (dict.pos &&& coder.posMask.toNat)) true).rcBit
      (.isRep loc.state) false)
    { loc with
      sequence := .isRep
      state := loc.state.updateMatch
      rep3 := loc.rep2
      rep2 := loc.rep1
      rep1 := loc.rep0
      symbol := 1 }
    .matchLen (dict.pos &&& coder.posMask.toNat) .matchLen (fun loc => { loc with
      probs := .posSlot (getLenToPosState loc.len).toNat
      symbol := 1 }.goto (.posSlot 0))
    hlen rfl (fun symbol s => rfl)
  obtain ⟨loc', hdistance, hsame, hrep0⟩ := distance_writes coder noEopm dict
    { loc with
      state := loc.state.updateMatch
      rep3 := loc.rep2
      rep2 := loc.rep1
      rep1 := loc.rep0
      len } distance len
    (LzmaEncoder.length ((encoder.rc.rcBit (.isMatch loc.state (dict.pos &&& coder.posMask.toNat))
      true).rcBit (.isRep loc.state) false) .matchLen (dict.pos &&& coder.posMask.toNat) len)
  refine ⟨loc', ((hmatch.trans hrep).trans hlength).trans hdistance, ⟨?_, hrep0, ?_, ?_, ?_⟩,
    hsame.len⟩
  · exact hsame.state
  · exact hsame.rep1.trans h.agrees.rep0
  · exact hsame.rep2.trans h.agrees.rep1
  · exact hsame.rep3.trans h.agrees.rep2

variable (coder noEopm dict) in
/-- The distance of a repeated match that is not a single byte. -/
theorem repDistance_writes {posState : ℕ} (encoder : LzmaEncoder) (loc : Local) (rep len : UInt32)
    (hposState : posState = dict.pos &&& coder.posMask.toNat) (hagrees : Agrees encoder loc)
    (hrep : rep.toNat < 4) (hlen : len ≠ 1) :
    ∃ loc', Writes coder noEopm dict encoder.rc (encoder.repDistance posState rep len).rc
        (.label { loc with sequence := .isRep0 }) loc'.longRep ∧
      Agrees (encoder.repDistance posState rep len) loc' := by
  obtain ⟨hstate, hrep0, hrep1, hrep2, hrep3⟩ := hagrees
  subst hposState
  unfold LzmaEncoder.repDistance
  dsimp only
  rw [← hstate]
  split_ifs with h0 h1 h3
  · have hlong : Writes coder noEopm dict _ (_ : RangeEncoder Prob)
        (.label { loc with sequence := .isRep0Long }) _ :=
      Writes.bit (encoder.rc.rcBit (.isRep0 loc.state) false) (decide (len ≠ 1)) rfl
    rw [if_neg (by simpa using hlen)] at hlong
    exact ⟨_, (Writes.bit_to rfl (if_pos rfl)).trans hlong, ⟨rfl, hrep0, hrep1, hrep2, hrep3⟩⟩
  · have hlong : Writes coder noEopm dict _ (_ : RangeEncoder Prob)
        (.label { loc with sequence := .isRep1 }) _ :=
      Writes.bit (encoder.rc.rcBit (.isRep0 loc.state) true) false rfl
    rw [if_pos rfl] at hlong
    exact ⟨_, (Writes.bit_to rfl (if_neg (by decide))).trans hlong,
      ⟨rfl, hrep1, hrep0, hrep2, hrep3⟩⟩
  · subst h3
    have hlong : Writes coder noEopm dict _ (_ : RangeEncoder Prob)
        (.label { loc with sequence := .isRep2 }) _ :=
      Writes.bit ((encoder.rc.rcBit (.isRep0 loc.state) true).rcBit (.isRep1 loc.state) true) true
        rfl
    rw [if_neg (by decide)] at hlong
    exact ⟨_, ((Writes.bit_to rfl (if_neg (by decide))).trans
      (Writes.bit_to rfl (if_neg (by decide)))).trans hlong, ⟨rfl, hrep3, hrep0, hrep1, hrep2⟩⟩
  · have htwo : rep = 2 := by
      have h0' : rep.toNat ≠ 0 := fun h => h0 (UInt32.toNat_inj.mp h)
      have h1' : rep.toNat ≠ 1 := fun h => h1 (UInt32.toNat_inj.mp h)
      have h3' : rep.toNat ≠ 3 := fun h => h3 (UInt32.toNat_inj.mp h)
      apply UInt32.toNat_inj.mp
      show rep.toNat = 2
      omega
    subst htwo
    have hlong : Writes coder noEopm dict _ (_ : RangeEncoder Prob)
        (.label { loc with sequence := .isRep2 }) _ :=
      Writes.bit ((encoder.rc.rcBit (.isRep0 loc.state) true).rcBit (.isRep1 loc.state) true) false
        rfl
    rw [if_pos rfl] at hlong
    exact ⟨_, ((Writes.bit_to rfl (if_neg (by decide))).trans
      (Writes.bit_to rfl (if_neg (by decide)))).trans hlong, ⟨rfl, hrep2, hrep0, hrep1, hrep3⟩⟩

/-- The two bits in front of a repeated match. -/
theorem isRep_writes (h : InStep encoder coder dict data position loc)
    (hroom : ¬ (noEopm = true ∧ dict.pos = dict.limit))
    (hvalid : dict.dictIsDistanceValid 0 = true) :
    Writes coder noEopm dict encoder.rc
      ((encoder.rc.rcBit (.isMatch encoder.state (position &&& encoder.posMask.toNat)) true).rcBit
        (.isRep encoder.state) true)
      (.label { loc with sequence := .isMatch }) (.label { loc with sequence := .isRep0 }) := by
  have hmatch := isMatch_writes h hroom true
  rw [if_neg (by decide)] at hmatch
  rw [← h.agrees.state] at hmatch ⊢
  exact hmatch.trans
    (Writes.bit_to rfl ((if_neg (by decide)).trans (if_pos hvalid)))

theorem rep_writes (h : InStep encoder coder dict data position loc)
    (hroom : ¬ (noEopm = true ∧ dict.pos = dict.limit))
    (hvalid : dict.dictIsDistanceValid 0 = true) {rep len : UInt32} (hrep : rep.toNat < 4)
    (hlen : 2 ≤ len.toNat ∧ len.toNat ≤ 273) {repeated : LzmaEncoder}
    (hrepeated : repeated = { encoder with
      rc := (encoder.rc.rcBit (.isMatch encoder.state (position &&& encoder.posMask.toNat))
        true).rcBit (.isRep encoder.state) true }.repMatch (position &&& encoder.posMask.toNat)
          rep len) :
    ∃ loc', Writes coder noEopm dict encoder.rc repeated.rc
        (.label { loc with sequence := .isMatch }) (.label loc') ∧
      Agrees repeated loc' ∧ loc'.sequence = .copy ∧ loc'.len = len := by
  have hne : len ≠ 1 := by
    rintro rfl
    exact absurd hlen.1 (by decide)
  have hfirst := isRep_writes h hroom hvalid
  obtain ⟨loc', hdistance, hagrees⟩ := repDistance_writes coder noEopm dict
    { encoder with
      rc := (encoder.rc.rcBit (.isMatch encoder.state (position &&& encoder.posMask.toNat))
        true).rcBit (.isRep encoder.state) true } loc rep len h.posState
    ⟨h.agrees.state, h.agrees.rep0, h.agrees.rep1, h.agrees.rep2, h.agrees.rep3⟩ hrep hne
  rw [hrepeated]
  unfold LzmaEncoder.repMatch
  dsimp only
  rw [if_neg hne]
  generalize LzmaEncoder.repDistance _ _ rep len = reached at hdistance hagrees ⊢
  obtain ⟨symbol, s, hlength⟩ := length_writes coder noEopm dict reached.rc
    { loc' with state := loc'.state.updateLongRep, symbol := 1 } .repLen
    (dict.pos &&& coder.posMask.toNat) .repLen (fun loc => loc.goto .copy) hlen rfl
    (fun symbol s => rfl)
  rw [← h.posState] at hlength
  exact ⟨_, (hfirst.trans hdistance).trans hlength,
    ⟨congrArg State.updateLongRep hagrees.state, hagrees.rep0, hagrees.rep1, hagrees.rep2,
      hagrees.rep3⟩, rfl, rfl⟩

/-- A repeated match of a single byte. -/
theorem shortrep_writes (h : InStep encoder coder dict data position loc)
    (hroom : ¬ (noEopm = true ∧ dict.pos = dict.limit))
    (hvalid : dict.dictIsDistanceValid 0 = true) {repeated : LzmaEncoder}
    (hrepeated : repeated = { encoder with
      rc := (encoder.rc.rcBit (.isMatch encoder.state (position &&& encoder.posMask.toNat))
        true).rcBit (.isRep encoder.state) true }.repMatch (position &&& encoder.posMask.toNat)
          0 1) :
    ∃ loc', Writes coder noEopm dict encoder.rc repeated.rc
        (.label { loc with sequence := .isMatch }) (.label loc') ∧
      Agrees repeated loc' ∧ loc'.sequence = .shortrep := by
  have hfirst := isRep_writes h hroom hvalid
  rw [hrepeated]
  unfold LzmaEncoder.repMatch LzmaEncoder.repDistance
  dsimp only
  rw [if_pos rfl, if_pos rfl]
  rw [h.posState, ← h.agrees.state] at *
  exact ⟨_, (hfirst.trans (Writes.bit_to rfl (if_pos rfl))).trans
    (Writes.bit_to rfl (if_pos (by decide))),
    ⟨rfl, h.agrees.rep0, h.agrees.rep1, h.agrees.rep2, h.agrees.rep3⟩, rfl⟩

end Symbols

/-- The bytes from `position` on repeat those at the distance. -/
structure Repeats (data : Bytes) (position distance n : ℕ) : Prop where
  le : position + n ≤ data.length
  lt : distance < position
  eq : ∀ i, position ≤ i → (hi : i < position + n) → data[i] = data[i - distance - 1]

/-- The distance of a repeated match. -/
def LzmaEncoder.rep (encoder : LzmaEncoder) (rep : UInt32) : UInt32 :=
  if rep = 0 then encoder.rep0
  else if rep = 1 then encoder.rep1
  else if rep = 3 then encoder.rep3
  else encoder.rep2

/-- What `encode_symbol` may be asked for in front of the byte at `position`. -/
inductive Takes (encoder : LzmaEncoder) (dict : Dict) (data : Bytes) (position : ℕ) :
    UInt32 → UInt32 → Prop
  | literal (h : position < data.length) : Takes encoder dict data position 0xFFFFFFFF 1
  | matched {distance len} (hvalid : dict.dictIsDistanceValid distance = true)
      (hback : distance.toNat + 5 < 2 ^ 32) (hlen : 2 ≤ len.toNat ∧ len.toNat ≤ 273)
      (hrepeats : Repeats data position distance.toNat len.toNat) :
      Takes encoder dict data position (distance + LzmaEncoder.repDistances) len
  | rep {rep len} (hvalid : dict.dictIsDistanceValid (encoder.rep rep) = true)
      (hrep : rep.toNat < 4) (hlen : 2 ≤ len.toNat ∧ len.toNat ≤ 273)
      (hrepeats : Repeats data position (encoder.rep rep).toNat len.toNat) :
      Takes encoder dict data position rep len
  | shortrep (hvalid : dict.dictIsDistanceValid encoder.rep0 = true)
      (hrepeats : Repeats data position encoder.rep0.toNat 1) :
      Takes encoder dict data position 0 1

/-- The history behind the bytes that the decoder writes at a label. -/
def Local.written (loc : Local) (h : Bytes) : Bytes :=
  match loc.sequence with
  | .literalWrite => h ++ [loc.symbol.toUInt8]
  | .shortrep => extend 0 h loc.rep0.toNat 1
  | .copy => extend 0 h loc.rep0.toNat loc.len.toNat
  | _ => h

theorem Repeats.extend {data : Bytes} {position distance n : ℕ}
    (h : Repeats data position distance n) :
    extend 0 (data.take position) distance n = data.take (position + n) :=
  extend_take h.le h.lt h.eq

theorem repMatch_rep0 (encoder : LzmaEncoder) (posState : ℕ) (rep len : UInt32) :
    (encoder.repMatch posState rep len).rep0 = encoder.rep rep := by
  unfold LzmaEncoder.repMatch LzmaEncoder.repDistance LzmaEncoder.rep
  dsimp only
  split_ifs <;> rfl

section Decoded
variable {encoder : LzmaEncoder} {coder : LzmaDecoder} {noEopm : Bool} {dict : Dict} {data : Bytes}
  {position : ℕ} {loc : Local} {back len : UInt32}

theorem encodeSymbol_matched {distance : UInt32} (hback : distance.toNat + 5 < 2 ^ 32) :
    encoder.encodeSymbol data (distance + LzmaEncoder.repDistances) len position =
      { encoder with
        rc := (encoder.rc.rcBit (.isMatch encoder.state (position &&& encoder.posMask.toNat))
          true).rcBit (.isRep encoder.state) false }.matched
        (position &&& encoder.posMask.toNat) distance len := by
  have hsub : distance + LzmaEncoder.repDistances - LzmaEncoder.repDistances = distance := by grind
  have hnot : distance + LzmaEncoder.repDistances ≠ 0xFFFFFFFF ∧
      ¬ distance + LzmaEncoder.repDistances < LzmaEncoder.repDistances := by
    have hfour : LzmaEncoder.repDistances.toNat = 4 := rfl
    have hmax : (0xFFFFFFFF : UInt32).toNat = 4294967295 := rfl
    rw [ne_eq, ← UInt32.toNat_inj, UInt32.lt_iff_toNat_lt, UInt32.toNat_add, hfour, hmax]
    omega
  rw [LzmaEncoder.encodeSymbol, if_neg hnot.1]
  dsimp only
  rw [if_neg hnot.2, hsub]

theorem encodeSymbol_rep (hrep : back.toNat < 4) :
    encoder.encodeSymbol data back len position = { encoder with
      rc := (encoder.rc.rcBit (.isMatch encoder.state (position &&& encoder.posMask.toNat))
        true).rcBit (.isRep encoder.state) true }.repMatch (position &&& encoder.posMask.toNat)
          back len := by
  have hne : back ≠ 0xFFFFFFFF := by
    rintro rfl
    exact absurd hrep (by decide)
  rw [LzmaEncoder.encodeSymbol, if_neg hne]
  exact if_pos hrep

/-- Whatever symbol the encoder takes, the decoder gets to a label at which it writes the bytes that
the symbol stands for, and both know the same of it. -/
theorem encodeSymbol_decoded (h : InStep encoder coder dict data position loc)
    (hroom : ¬ (noEopm = true ∧ dict.pos = dict.limit))
    (htakes : Takes encoder dict data position back len) :
    ∃ loc', Writes coder noEopm dict encoder.rc (encoder.encodeSymbol data back len position).rc
        (.label { loc with sequence := .isMatch }) (.label loc') ∧
      Agrees (encoder.encodeSymbol data back len position) loc' ∧
      loc'.written (data.take position) = data.take (position + len.toNat) := by
  have hfull {distance : UInt32} (hvalid : dict.dictIsDistanceValid distance = true) :
      dict.dictIsDistanceValid 0 = true :=
    decide_eq_true (Nat.lt_of_le_of_lt (Nat.zero_le _) (of_decide_eq_true hvalid))
  cases htakes with
  | literal hlt =>
    obtain ⟨loc', hwrites, hagrees, hseq, hbyte⟩ := literal_writes h hroom 1
    refine ⟨loc', hwrites, hagrees, ?_⟩
    rw [Local.written, hseq]
    dsimp only
    rw [hbyte]
    show _ = data.take (position + 1)
    rw [List.take_succ_eq_append_getElem hlt, List.getElem?_eq_getElem hlt, Option.getD_some]
  | @matched distance _ hvalid hback hlen hrepeats =>
    obtain ⟨loc', hwrites, hagrees, hlen'⟩ := matched_writes h hroom distance hlen rfl
    have hrep0 : loc'.rep0 = distance := hagrees.rep0
    have hne : loc'.rep0 ≠ 0xFFFFFFFF := by
      have hmax : (0xFFFFFFFF : UInt32).toNat = 4294967295 := rfl
      rw [hrep0, ne_eq, ← UInt32.toNat_inj, hmax]
      omega
    have hdone : loc'.alignDone noEopm dict = loc'.goto .copy := by
      rw [Local.alignDone, if_neg hne, Local.validate, hrep0]
      exact if_pos hvalid
    rw [hdone] at hwrites
    rw [encodeSymbol_matched hback]
    refine ⟨_, hwrites, ⟨hagrees.state, hagrees.rep0, hagrees.rep1, hagrees.rep2, hagrees.rep3⟩, ?_⟩
    show extend 0 (data.take position) loc'.rep0.toNat loc'.len.toNat = _
    rw [hrep0, hlen']
    exact hrepeats.extend
  | @rep rep _ hvalid hrep hlen hrepeats =>
    obtain ⟨loc', hwrites, hagrees, hseq, hlen'⟩ := rep_writes h hroom (hfull hvalid) hrep hlen rfl
    rw [encodeSymbol_rep hrep]
    refine ⟨loc', hwrites, hagrees, ?_⟩
    rw [Local.written, hseq]
    dsimp only
    rw [hagrees.rep0, hlen', repMatch_rep0]
    exact hrepeats.extend
  | shortrep hvalid hrepeats =>
    obtain ⟨loc', hwrites, hagrees, hseq⟩ := shortrep_writes h hroom (hfull hvalid) rfl
    rw [encodeSymbol_rep (by decide)]
    refine ⟨loc', hwrites, hagrees, ?_⟩
    rw [Local.written, hseq]
    dsimp only
    rw [hagrees.rep0, repMatch_rep0]
    exact hrepeats.extend

/-- The mark of the end, which a decoder that does not know the size goes to. -/
theorem encodeEopm_decoded (h : InStep encoder coder dict data position loc) :
    ∃ loc', Writes coder false dict encoder.rc (encoder.encodeEopm position).rc
        (.label { loc with sequence := .isMatch }) (.label loc') ∧ loc'.sequence = .eopm := by
  have hroom : ¬ (false = true ∧ dict.pos = dict.limit) := fun h => Bool.noConfusion h.1
  have hlen : 2 ≤ matchLenMin.toNat ∧ matchLenMin.toNat ≤ 273 := by decide
  obtain ⟨loc', hwrites, hagrees, -⟩ := matched_writes h hroom 0xFFFFFFFF hlen rfl
  have hrep0 : loc'.rep0 = 0xFFFFFFFF := hagrees.rep0
  have hdone : loc'.alignDone false dict = loc'.goto .eopm := by
    rw [Local.alignDone, if_pos hrep0]
    rfl
  rw [hdone] at hwrites
  exact ⟨_, hwrites, rfl⟩

/-- The masks and the contexts are the same on both sides, and the dictionary holds what was encoded
so far: encoder and decoder are in step. -/
theorem inStep_of_holds (hholds : dict.Holds (data.take position)) (hle : position ≤ data.length)
    (hagrees : Agrees encoder loc) (hposMask : encoder.posMask = coder.posMask)
    (hcontext : encoder.literalContextBits = coder.literalContextBits)
    (hliteral : encoder.literalPosMask = coder.literalPosMask)
    (hpos : ∃ k ≤ 4, coder.posMask.toNat = 2 ^ k - 1)
    (hlit : ∃ k ≤ 4, coder.literalPosMask.toNat = 2 ^ k - 1) (hsize : 16 ∣ dict.size)
    (hvalid : encoder.state.isLiteralState = false →
      dict.dictIsDistanceValid encoder.rep0 = true) :
    InStep encoder coder dict data position loc := by
  have hlength : (data.take position).length = position := by
    rw [List.length_take, Nat.min_eq_left hle]
  have hand {mask : ℕ} (hmask : ∃ k ≤ 4, mask = 2 ^ k - 1) :
      position &&& mask = dict.pos &&& mask := by
    obtain ⟨k, hk, rfl⟩ := hmask
    rw [Nat.and_two_pow_sub_one_eq_mod, Nat.and_two_pow_sub_one_eq_mod,
      hholds.pos_mod ((Nat.pow_dvd_pow 2 hk).trans hsize), hlength]
  have hback {d : ℕ} (hd : d < position) :
      back 0 (data.take position) d = (data[position - d - 1]?).getD 0 := by
    rw [back_of_lt (by omega), List.getElem_take, List.getElem?_eq_getElem (by omega),
      Option.getD_some]
    congr 1
    omega
  refine ⟨hagrees, by rw [hposMask]; exact hand hpos, ?_, fun hstate => ?_⟩
  · have hprev : (if position = 0 then 0 else (data[position - 1]?).getD 0) = dict.dictGet 0 := by
      rw [hholds.dictGet_zero]
      split_ifs with hzero
      · subst hzero
        rfl
      · exact (hback (Nat.pos_of_ne_zero hzero)).symm
    rw [hprev, hcontext, hliteral, literalSubcoder, literalSubcoder, hand hlit]
  · rw [hholds.dictGet (hvalid hstate)]
    have hlt := (hholds.valid_iff.mp (hvalid hstate)).1
    rw [hlength] at hlt
    exact (hback hlt).symm

end Decoded

/-- Symbols that the encoder takes one after another, with what each of them puts into the queue of
the range encoder. In between `rc_encode` empties the queue. -/
inductive TakesAll (dict : ℕ → Dict) (data : Bytes) :
    LzmaEncoder → ℕ → List (List (Symbol Prob)) → LzmaEncoder → ℕ → Prop
  | nil {encoder position} : TakesAll dict data encoder position [] encoder position
  | symbol {encoder position back len rc queues encoder' position'}
      (h : Takes encoder (dict position) data position back len) (hempty : rc.symbols = [])
      (rest : TakesAll dict data { encoder.encodeSymbol data back len position with rc }
        (position + len.toNat) queues encoder' position') :
      TakesAll dict data encoder position
        ((encoder.encodeSymbol data back len position).rc.symbols :: queues) encoder' position'

/-- The queue of each symbol, and of a flush behind it, lies in the arrays. -/
theorem TakesAll.fits {dict : ℕ → Dict} {data : Bytes} {encoder encoder' : LzmaEncoder}
    {position position' : ℕ} {queues : List (List (Symbol Prob))}
    (h : TakesAll dict data encoder position queues encoder' position')
    (hempty : encoder.rc.symbols = []) : ∀ queue ∈ queues, queue.length + 5 ≤ rcSymbolsMax := by
  induction h with
  | nil => exact fun _ hmem => absurd hmem List.not_mem_nil
  | @symbol encoder position back len _ _ _ _ _ hrc _ ih =>
    intro queue hmem
    obtain rfl | hmem := List.mem_cons.mp hmem
    · have hfits := LzmaEncoder.encodeSymbol_fits hempty data back len position
      unfold RangeEncoder.Fits RangeEncoder.rcFlush at hfits
      rwa [List.length_append, List.length_replicate] at hfits
    · exact ih hrc queue hmem

/-- The decoder gets to one write after another, each of which writes the next bytes of the data. -/
inductive Decodes (coder : LzmaDecoder) (noEopm : Bool) (dict : ℕ → Dict) (data : Bytes) :
    ℕ → Local → List (Symbol Prob) → ℕ → Local → Prop
  | nil {position loc} : Decodes coder noEopm dict data position loc [] position loc
  | symbol {position n position' loc loc' loc'' symbols symbols'}
      (path : Path coder noEopm (dict position) (.label { loc with sequence := .isMatch }) symbols
        (.label loc'))
      (written : loc'.written (data.take position) = data.take (position + n))
      (rest : Decodes coder noEopm dict data (position + n) loc' symbols' position' loc'') :
      Decodes coder noEopm dict data position loc (symbols ++ symbols') position' loc''

/-- The options that encoder and decoder were given. -/
structure SameOptions (encoder : LzmaEncoder) (coder : LzmaDecoder) : Prop where
  posMask : encoder.posMask = coder.posMask
  context : encoder.literalContextBits = coder.literalContextBits
  literal : encoder.literalPosMask = coder.literalPosMask
  pos_pow : ∃ k ≤ 4, coder.posMask.toNat = 2 ^ k - 1
  literal_pow : ∃ k ≤ 4, coder.literalPosMask.toNat = 2 ^ k - 1

theorem encodeSymbol_options (encoder : LzmaEncoder) (data : Bytes) (back len : UInt32)
    (position : ℕ) :
    (encoder.encodeSymbol data back len position).posMask = encoder.posMask ∧
      (encoder.encodeSymbol data back len position).literalContextBits =
        encoder.literalContextBits ∧
      (encoder.encodeSymbol data back len position).literalPosMask = encoder.literalPosMask := by
  unfold LzmaEncoder.encodeSymbol LzmaEncoder.repMatch LzmaEncoder.repDistance
  dsimp only
  split_ifs <;> exact ⟨rfl, rfl, rfl⟩

theorem SameOptions.encodeSymbol {encoder : LzmaEncoder} {coder : LzmaDecoder}
    (h : SameOptions encoder coder) (data : Bytes) (back len : UInt32) (position : ℕ) :
    SameOptions (encoder.encodeSymbol data back len position) coder := by
  obtain ⟨hpos, hcontext, hliteral⟩ := encodeSymbol_options encoder data back len position
  exact ⟨hpos.trans h.posMask, hcontext.trans h.context, hliteral.trans h.literal, h.pos_pow,
    h.literal_pow⟩

theorem Takes.le {encoder : LzmaEncoder} {dict : Dict} {data : Bytes} {position : ℕ}
    {back len : UInt32} (h : Takes encoder dict data position back len) :
    0 < len.toNat ∧ position + len.toNat ≤ data.length := by
  cases h with
  | literal hlt => exact ⟨by decide, hlt⟩
  | matched _ _ hlen hrepeats => exact ⟨by omega, hrepeats.le⟩
  | rep _ _ hlen hrepeats => exact ⟨by omega, hrepeats.le⟩
  | shortrep _ hrepeats => exact ⟨by decide, hrepeats.le⟩

/-- Behind a match the last distance is one of the dictionary. -/
theorem Takes.rep0_valid {encoder : LzmaEncoder} {dict : Dict} {data : Bytes} {position : ℕ}
    {back len : UInt32} (h : Takes encoder dict data position back len)
    (hstate : (encoder.encodeSymbol data back len position).state.isLiteralState = false) :
    dict.dictIsDistanceValid (encoder.encodeSymbol data back len position).rep0 = true := by
  cases h with
  | literal hlt =>
    rw [LzmaEncoder.encodeSymbol, if_pos rfl] at hstate
    exact absurd (State.isLiteralState_updateLiteral _) (by
      rw [Bool.not_eq_true]
      exact hstate)
  | matched hvalid hback _ _ =>
    rw [encodeSymbol_matched hback]
    exact hvalid
  | rep hvalid hrep _ _ =>
    rw [encodeSymbol_rep hrep, repMatch_rep0]
    exact hvalid
  | shortrep hvalid _ =>
    rw [encodeSymbol_rep (by decide), repMatch_rep0]
    exact hvalid

/-- A whole run of the encoder, whichever symbols it takes, leads the decoder through the same
data. The dictionaries are those that the decoder has in front of each symbol. -/
theorem encode_decodes {coder : LzmaDecoder} {noEopm : Bool} {dict : ℕ → Dict} {data : Bytes}
    {size : ℕ} {encoder encoder' : LzmaEncoder} {position position' : ℕ} {loc : Local}
    {queues : List (List (Symbol Prob))}
    (hholds : ∀ p ≤ data.length, (dict p).Holds (data.take p) ∧ (dict p).size = size ∧
      (p < data.length → (dict p).pos < (dict p).limit)) (hsize : 16 ∣ size)
    (htakes : TakesAll dict data encoder position queues encoder' position')
    (hempty : encoder.rc.symbols = []) (hle : position ≤ data.length)
    (hagrees : Agrees encoder loc) (hoptions : SameOptions encoder coder)
    (hvalid : encoder.state.isLiteralState = false →
      (dict position).dictIsDistanceValid encoder.rep0 = true) :
    ∃ loc', Decodes coder noEopm dict data position loc queues.flatten position' loc' ∧
      Agrees encoder' loc' := by
  induction htakes generalizing loc with
  | nil => exact ⟨loc, .nil, hagrees⟩
  | @symbol encoder position back len rc _ _ _ htake hrc _ ih =>
    obtain ⟨hdict, hdictSize, hlimit⟩ := hholds position hle
    have hin := inStep_of_holds hdict hle hagrees hoptions.posMask hoptions.context
      hoptions.literal hoptions.pos_pow hoptions.literal_pow (hdictSize ▸ hsize) hvalid
    have hend := htake.le
    have hroom : ¬ (noEopm = true ∧ (dict position).pos = (dict position).limit) :=
      fun h => (hlimit (by omega)).ne h.2
    obtain ⟨loc', ⟨symbols, hsymbols, hpath⟩, hagrees', hwritten⟩ :=
      encodeSymbol_decoded hin hroom htake
    rw [hempty, List.nil_append] at hsymbols
    have hkept : Agrees { encoder.encodeSymbol data back len position with rc } loc' :=
      ⟨hagrees'.state, hagrees'.rep0, hagrees'.rep1, hagrees'.rep2, hagrees'.rep3⟩
    have hsame := hoptions.encodeSymbol data back len position
    obtain ⟨hnext, hnextSize, -⟩ := hholds _ hend.2
    obtain ⟨loc'', hdecodes, hagrees''⟩ := ih hrc hend.2 hkept
      ⟨hsame.posMask, hsame.context, hsame.literal, hsame.pos_pow, hsame.literal_pow⟩
      (fun hstate => by
        have hold := hdict.valid_iff.mp (htake.rep0_valid hstate)
        rw [hnext.valid_iff, hnextSize, ← hdictSize]
        refine ⟨Nat.lt_of_lt_of_le hold.1 ?_, hold.2⟩
        rw [List.length_take, List.length_take]
        omega)
    rw [hsymbols, List.flatten_cons]
    exact ⟨loc'', .symbol hpath hwritten hdecodes, hagrees''⟩

/-- The byte that `encode_init` writes is a literal like any other. -/
theorem encodeInit_eq (options : Options) (data : Bytes) :
    (LzmaEncoder.lzmaLzmaEncoderReset options).encodeInit data =
      (LzmaEncoder.lzmaLzmaEncoderReset options).encodeSymbol data 0xFFFFFFFF 1 0 := by
  have hsubcoder (lc lpMask : ℕ) : literalSubcoder lc lpMask 0 0 = 0 := by
    simp [literalSubcoder]
  unfold LzmaEncoder.encodeSymbol LzmaEncoder.literal LzmaEncoder.encodeInit
  rw [if_pos rfl]
  dsimp only
  rw [Nat.zero_and, if_pos rfl, hsubcoder]
  rfl

theorem reset_sameOptions {options : Options} (hvalid : options.isLclppbValid = true)
    (coder : LzmaDecoder) :
    SameOptions (LzmaEncoder.lzmaLzmaEncoderReset options) (coder.lzmaDecoderReset options) := by
  obtain ⟨hlclp, hpb⟩ := LzDecoder.isLclppbValid_iff.mp hvalid
  have hposMask := LzDecoder.mask_toNat options.pb.toNat (by omega)
  have hliteral := LzDecoder.mask_toNat options.lp.toNat (by omega)
  rw [UInt32.ofNat_toNat] at hposMask hliteral
  exact ⟨rfl, rfl, rfl, ⟨_, hpb, Nat.eq_sub_of_add_eq hposMask⟩,
    ⟨_, by omega, Nat.eq_sub_of_add_eq hliteral⟩⟩

/-- A dictionary of 4096 bytes in front of the first byte, and behind the first ones of `data`. -/
def dictBehind (data : Bytes) : ℕ → Dict
  | 0 => { (LzDecoder.init (List.replicate 4096 0) ()).dict with limit := 4096 }
  | p + 1 => ((dictBehind data p).dictPut ((data[p]?).getD 0)).2

theorem dictBehind_holds {data : Bytes} {p : ℕ} (hp : p ≤ data.length) (hlt : p ≤ 4096) :
    (dictBehind data p).Holds (data.take p) ∧ (dictBehind data p).size = 4096 ∧
      (dictBehind data p).pos = p ∧ (dictBehind data p).limit = 4096 := by
  induction p with
  | zero =>
    have hlength : (List.replicate 4096 (0 : UInt8)).length = 4096 := List.length_replicate
    have hinit : (LzDecoder.init (List.replicate 4096 0) ()).dict.size = 4096 := hlength
    have hpos : 0 < (List.replicate 4096 (0 : UInt8)).length := by
      rw [hlength]
      decide
    have hholds := LzDecoder.init_holds hpos
      ⟨fun _ => 0, .rcReset, ⟨.isMatch, .litLit, 0, 0, 0, 0, .literal 0, 0, 0, 0, 0⟩, 0, 0, 0, 0⟩
    exact ⟨LzmaDecoder.holds_withLimit 4096 hholds (Nat.zero_le _) hinit.ge, hinit, rfl, rfl⟩
  | succ p ih =>
    obtain ⟨hholds, hsize, hpos, hlimit⟩ := ih (by omega) (by omega)
    obtain ⟨dict', hput, hholds', hpos', hlimit', hsize', -⟩ :=
      hholds.dictPut ((data[p]?).getD 0) (by omega)
    have hdict : dictBehind data (p + 1) = dict' := by rw [dictBehind, hput]
    rw [hdict, List.take_succ_eq_append_getElem hp]
    rw [List.getElem?_eq_getElem hp, Option.getD_some] at hholds'
    exact ⟨hholds', hsize'.trans hsize, by rw [hpos', hpos], hlimit'.trans hlimit⟩

section Repeated

/-- The encoder behind some symbols, with an empty queue, and their queues. -/
def LzmaEncoder.encodeAll (data : Bytes) :
    List (UInt32 × UInt32) → LzmaEncoder → ℕ → LzmaEncoder × List (List (Symbol Prob))
  | [], encoder, _ => (encoder, [])
  | (back, len) :: symbols, encoder, position =>
    let encoder := encoder.encodeSymbol data back len position
    let r := encodeAll data symbols { encoder with rc := { encoder.rc with symbols := [] } }
      (position + len.toNat)
    (r.1, encoder.rc.symbols :: r.2)

theorem Takes.cons {encoder : LzmaEncoder} {dict : ℕ → Dict} {data : Bytes} {back len : UInt32}
    {position position' : ℕ} {symbols : List (UInt32 × UInt32)}
    (h : Takes encoder (dict position) data position back len)
    (rest : let encoder' := encoder.encodeSymbol data back len position
      let r := LzmaEncoder.encodeAll data symbols
        { encoder' with rc := { encoder'.rc with symbols := [] } } (position + len.toNat)
      TakesAll dict data { encoder' with rc := { encoder'.rc with symbols := [] } }
        (position + len.toNat) r.2 r.1 position') :
    TakesAll dict data encoder position
      (LzmaEncoder.encodeAll data ((back, len) :: symbols) encoder position).2
      (LzmaEncoder.encodeAll data ((back, len) :: symbols) encoder position).1 position' :=
  .symbol h rfl rest

def repeated : Bytes := [1, 2, 3, 4, 5, 1, 2, 3, 1, 2, 1, 2, 3]

/-- Five literals, matches with the distances 5 and 3, a repeated match with the former, and a
single byte. -/
def repeatedSymbols : List (UInt32 × UInt32) :=
  [(0xFFFFFFFF, 1), (0xFFFFFFFF, 1), (0xFFFFFFFF, 1), (0xFFFFFFFF, 1), (0xFFFFFFFF, 1),
    (4 + 4, 3), (2 + 4, 2), (1, 2), (0, 1)]

end Repeated

end Lzma
