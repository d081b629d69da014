import Zim.Lzma.Dictionary
import Zim.Lzma.LzmaCommon

/-! The LZMA decoder (lzma/lzma_decoder.c of liblzma, with its unrolled loops). The code between two
labels of the main loop is an action: it asks the range decoder for a bit and says where to go on
with it, or it writes to the dictionary. -/
namespace Lzma
open Cxx

/-- The labels of `len_decode`, of which those of a loop count its turns. -/
inductive LenSequence where
  | choice
  | low (k : ℕ)
  | choice2
  | mid (k : ℕ)
  | high (k : ℕ)
  deriving DecidableEq, Repr

/-- The labels of the main loop, of which those of an unrolled loop count its turns. -/
inductive Sequence where
  | normalize
  | isMatch
  | literal (k : ℕ)
  | literalMatched (k : ℕ)
  | literalWrite
  | isRep
  | matchLen (seq : LenSequence)
  | posSlot (k : ℕ)
  | posModel
  | direct
  | align (k : ℕ)
  | eopm
  | isRep0
  | shortrep
  | isRep0Long
  | isRep1
  | isRep2
  | repLen (seq : LenSequence)
  | copy
  deriving DecidableEq, Repr

/-- The base of the current probability tree. -/
inductive ProbBase where
  | literal (coder : ℕ)
  | posSlot (lenState : ℕ)
  /-- A pointer that can lie one in front of the table. -/
  | posSpecial (offset : ℤ)
  deriving DecidableEq, Repr

/-- `probs[symbol]`. -/
def ProbBase.index : ProbBase → UInt32 → Prob
  | literal coder, symbol => .literal coder symbol.toNat
  | posSlot lenState, symbol => .posSlot lenState symbol.toNat
  | posSpecial offset, symbol => .posSpecial (offset + symbol.toNat).toNat

/-- A pointer in front of the table is not followed there. -/
def ProbBase.inFront : ProbBase → UInt32 → Bool
  | posSpecial offset, symbol => 0 ≤ offset + symbol.toNat
  | _, _ => true

/-- What the main loop keeps in local variables. -/
structure Local where
  sequence : Sequence
  state : State
  rep0 : UInt32
  rep1 : UInt32
  rep2 : UInt32
  rep3 : UInt32
  probs : ProbBase
  symbol : UInt32
  limit : UInt32
  offset : UInt32
  len : UInt32
  deriving DecidableEq, Repr

/-- `LZMA_VLI_UNKNOWN`. -/
def vliUnknown : UInt64 := 0xFFFFFFFFFFFFFFFF

/-- `lzma_coder` of lzma_decoder.c. -/
structure LzmaDecoder where
  probabilities : Probs
  rc : RangeDecoder
  loc : Local
  posMask : UInt32
  literalContextBits : UInt32
  literalPosMask : UInt32
  uncompressedSize : UInt64

/-- Where the code goes on: at a label, or at `out` with what is returned. -/
inductive Next where
  | label (loc : Local)
  | out (ret : Ret) (loc : Local)

/-- The assertions in front of `SEQ_COPY`. -/
def Next.asserted : Next → Bool
  | label loc => loc.sequence ≠ .copy || matchLenMin ≤ loc.len && loc.len ≤ matchLenMax
  | out _ _ => true

/-- What the code at a label does first. -/
inductive Action where
  /-- `rc_if_0` or `rc_bit`, and the code for each bit. -/
  | bit (prob : Prob) (next : Bool → Next)
  /-- `rc_direct`. -/
  | direct (next : Bool → Next)
  /-- `rc_normalize` in front of the end. -/
  | normalize (ret : Ret)
  /-- `dict_put`, behind which the next turn begins. -/
  | put (byte : UInt8)
  /-- `dict_repeat`, behind which the next turn begins. -/
  | copy
  /-- The `break` out of the loop. -/
  | leave

def Action.inTable : Action → Bool
  | bit prob _ => prob.inTable
  | _ => true

/-- The assertions in front of `SEQ_COPY` hold with each bit. -/
def Action.asserted : Action → Bool
  | bit _ next => (next false).asserted && (next true).asserted
  | direct next => (next false).asserted && (next true).asserted
  | _ => true

namespace Local

/-- `symbol <<= 1` or `symbol = (symbol << 1) + 1`. -/
def shift (loc : Local) (bit : Bool) : Local :=
  { loc with symbol := loc.symbol <<< 1 + bif bit then 1 else 0 }

def goto (loc : Local) (sequence : Sequence) : Next := .label { loc with sequence }

/-- The table `next_state`. -/
def nextState : State → State
  | .litLit => .litLit
  | .matchLitLit => .litLit
  | .repLitLit => .litLit
  | .shortrepLitLit => .litLit
  | .matchLit => .matchLitLit
  | .repLit => .repLitLit
  | .shortrepLit => .shortrepLitLit
  | .litMatch => .matchLit
  | .litLongrep => .repLit
  | .litShortrep => .shortrepLit
  | .nonlitMatch => .matchLit
  | .nonlitRep => .repLit

theorem nextState_eq (state : State) : nextState state = state.updateLiteral := by
  cases state <;> rfl

/-- Behind the last bit of a literal. -/
def literalDone (loc : Local) : Next :=
  { loc with state := nextState loc.state }.goto .literalWrite

/-- `len_decode`, with the labels and the code behind it. -/
def lenDecode (loc : Local) (len : LenCoder) (posState : ℕ) (seq : LenSequence → Sequence)
    (behind : Local → Next) : LenSequence → Action
  | .choice => .bit (.choice len) fun bit =>
    if bit = false then loc.goto (seq (.low 0)) else loc.goto (seq .choice2)
  | .low k => .bit (.low len posState loc.symbol.toNat) fun bit =>
    let loc := loc.shift bit
    if k < 2 then loc.goto (seq (.low (k + 1)))
    else behind { loc with len := loc.symbol - lenLowSymbols + matchLenMin }
  | .choice2 => .bit (.choice2 len) fun bit =>
    if bit = false then loc.goto (seq (.mid 0)) else loc.goto (seq (.high 0))
  | .mid k => .bit (.mid len posState loc.symbol.toNat) fun bit =>
    let loc := loc.shift bit
    if k < 2 then loc.goto (seq (.mid (k + 1)))
    else behind { loc with len := loc.symbol - lenMidSymbols + matchLenMin + lenLowSymbols }
  | .high k => .bit (.high len loc.symbol.toNat) fun bit =>
    let loc := loc.shift bit
    if k < 7 then loc.goto (seq (.high (k + 1)))
    else behind
      { loc with len := loc.symbol - lenHighSymbols + matchLenMin + lenLowSymbols + lenMidSymbols }

/-- The check of the distance behind its last bit. -/
def validate (loc : Local) (dict : Dict) : Next :=
  if dict.dictIsDistanceValid loc.rep0 then loc.goto .copy else .out .dataError loc

/-- Behind the last bit of the position slot. -/
def slotDone (loc : Local) (dict : Dict) : Next :=
  let loc := { loc with symbol := loc.symbol - posSlots }
  if loc.symbol < startPosModelIndex then { loc with rep0 := loc.symbol }.validate dict
  else
    let loc := { loc with limit := loc.symbol >>> 1 - 1, rep0 := 2 + (loc.symbol &&& 1) }
    if loc.symbol < endPosModelIndex then
      let rep0 := loc.rep0 <<< loc.limit
      { loc with
        rep0
        probs := .posSpecial ((rep0.toNat : ℤ) - loc.symbol.toNat - 1)
        symbol := 1
        offset := 0 }.goto .posModel
    else { loc with limit := loc.limit - alignBits }.goto .direct

/-- The assertions of `slotDone`, with the symbol that the last bit leaves. -/
def slotAsserted (symbol : UInt32) : Bool :=
  let symbol := symbol - posSlots
  symbol ≤ 63 && (symbol < startPosModelIndex ||
    let limit := symbol >>> 1 - 1
    let rep0 := 2 + (symbol &&& 1)
    1 ≤ limit && limit ≤ 30 &&
      if symbol < endPosModelIndex then
        let rep0 := rep0 <<< limit
        let base := (rep0 - symbol - 1).toInt32
        limit ≤ 5 && rep0 ≤ 96 && -1 ≤ base && base ≤ 82
      else 14 ≤ symbol && 6 ≤ limit && 2 ≤ limit - alignBits)

/-- Behind the last bit of a distance that is not below 128. -/
def alignDone (loc : Local) (noEopm : Bool) (dict : Dict) : Next :=
  if loc.rep0 = 0xFFFFFFFF then
    if noEopm then .out .dataError loc else loc.goto .eopm
  else loc.validate dict

/-- In front of the length of a repeated match. -/
def longRep (loc : Local) : Next :=
  { loc with state := loc.state.updateLongRep, symbol := 1 }.goto (.repLen .choice)

end Local

namespace LzmaDecoder

/-- The code at a label. -/
def action (coder : LzmaDecoder) (noEopm : Bool) (dict : Dict) : Action :=
  let loc := coder.loc
  -- `dict.pos` stays where it is between the labels that read `pos_state`
  let posState := dict.pos &&& coder.posMask.toNat
  match loc.sequence with
  | .normalize | .isMatch =>
    if noEopm ∧ dict.pos = dict.limit then .leave
    else .bit (.isMatch loc.state posState) fun bit =>
      if bit = false then
        let probs := .literal (literalSubcoder coder.literalContextBits.toNat
          coder.literalPosMask.toNat dict.pos (dict.dictGet 0))
        let loc := { loc with probs, symbol := 1 }
        if loc.state.isLiteralState then loc.goto (.literal 0)
        else
          { loc with
            len := (dict.dictGet loc.rep0).toUInt32 <<< 1
            offset := 0x100 }.goto (.literalMatched 0)
      else loc.goto .isRep
  | .literal k => .bit (loc.probs.index loc.symbol) fun bit =>
    let loc := loc.shift bit
    if k < 7 then loc.goto (.literal (k + 1)) else loc.literalDone
  | .literalMatched k =>
    let matchBit := loc.len &&& loc.offset
    let subcoderIndex := loc.offset + matchBit + loc.symbol
    .bit (loc.probs.index subcoderIndex) fun bit =>
      let offset := if bit = false then loc.offset &&& ~~~matchBit else loc.offset &&& matchBit
      let loc := { loc.shift bit with offset }
      if k < 7 then { loc with len := loc.len <<< 1 }.goto (.literalMatched (k + 1))
      else loc.literalDone
  | .literalWrite => .put loc.symbol.toUInt8
  | .isRep => .bit (.isRep loc.state) fun bit =>
    if bit = false then
      { loc with
        state := loc.state.updateMatch
        rep3 := loc.rep2
        rep2 := loc.rep1
        rep1 := loc.rep0
        symbol := 1 }.goto (.matchLen .choice)
    else if dict.dictIsDistanceValid 0 then loc.goto .isRep0
    else .out .dataError loc
  | .matchLen seq =>
    loc.lenDecode .matchLen posState .matchLen (fun loc =>
      { loc with probs := .posSlot (getLenToPosState loc.len).toNat, symbol := 1 }.goto
        (.posSlot 0)) seq
  | .posSlot k => .bit (loc.probs.index loc.symbol) fun bit =>
    let loc := loc.shift bit
    if k < 5 then loc.goto (.posSlot (k + 1)) else loc.slotDone dict
  | .posModel => .bit (loc.probs.index loc.symbol) fun bit =>
    let loc := { loc with rep0 := loc.rep0 + bif bit then 1 <<< loc.offset else 0 }
    if loc.limit = (1 : UInt32) then loc.validate dict
    else { loc.shift bit with
      offset := loc.offset + 1
      limit := loc.limit - 1 }.goto .posModel
  | .direct => .direct fun bit =>
    let loc := { loc with
      rep0 := loc.rep0 <<< 1 + bif bit then 1 else 0
      limit := loc.limit - 1 }
    if (0 : UInt32) < loc.limit then loc.goto .direct
    else { loc with rep0 := loc.rep0 <<< alignBits, symbol := 1 }.goto (.align 0)
  | .align k => .bit (.posAlign loc.symbol.toNat) fun bit =>
    let loc := { loc with rep0 := loc.rep0 + bif bit then 1 <<< UInt32.ofNat k else 0 }
    if k < 3 then (loc.shift bit).goto (.align (k + 1)) else loc.alignDone noEopm dict
  | .eopm => .normalize .streamEnd
  | .isRep0 => .bit (.isRep0 loc.state) fun bit =>
    if bit = false then loc.goto .isRep0Long else loc.goto .isRep1
  | .isRep0Long => .bit (.isRep0Long loc.state posState) fun bit =>
    if bit = false then { loc with state := loc.state.updateShortRep }.goto .shortrep
    else loc.longRep
  | .shortrep => .put (dict.dictGet loc.rep0)
  | .isRep1 => .bit (.isRep1 loc.state) fun bit =>
    if bit = false then { loc with rep1 := loc.rep0, rep0 := loc.rep1 }.longRep
    else loc.goto .isRep2
  | .isRep2 => .bit (.isRep2 loc.state) fun bit =>
    if bit = false then
      { loc with rep2 := loc.rep1, rep1 := loc.rep0, rep0 := loc.rep2 }.longRep
    else { loc with
      rep3 := loc.rep2
      rep2 := loc.rep1
      rep1 := loc.rep0
      rep0 := loc.rep3 }.longRep
  | .repLen seq => loc.lenDecode .repLen posState .repLen (fun loc => loc.goto .copy) seq
  | .copy => .copy

/-- What an action leads to: the next label, or `out` with what is returned. -/
inductive Progress where
  | more (coder : LzmaDecoder) (dict : Dict) (input : Bytes)
  | out (ret : Ret) (coder : LzmaDecoder) (dict : Dict) (input : Bytes)

/-- `sequence` is the label at which the call began; it stays in the coder when the loop is left for
another reason than a lack of input or of room. -/
def follow (coder : LzmaDecoder) (sequence : Sequence) (dict : Dict) (input : Bytes) :
    Next → Progress
  | .label loc => .more { coder with loc } dict input
  | .out ret loc => .out ret { coder with loc := { loc with sequence } } dict input

/-- The decoder with another label. -/
def jump (coder : LzmaDecoder) (sequence : Sequence) : LzmaDecoder :=
  { coder with loc := { coder.loc with sequence } }

def step (coder : LzmaDecoder) (noEopm : Bool) (sequence : Sequence) (dict : Dict)
    (input : Bytes) : Progress :=
  match coder.action noEopm dict with
  | .bit prob next =>
    match coder.rc.rcBit (coder.probabilities prob) input with
    | none => .out .ok coder dict input
    | some (bit, rc, updated, input) =>
      let probabilities := fun i => if i = prob then updated else coder.probabilities i
      { coder with rc, probabilities }.follow sequence dict input (next bit)
  | .direct next =>
    match coder.rc.rcDirect input with
    | none => .out .ok coder dict input
    | some (bit, rc, input) => { coder with rc }.follow sequence dict input (next bit)
  | .normalize ret =>
    match coder.rc.rcNormalize input with
    | none => .out .ok coder dict input
    | some (rc, input) => { coder with rc }.follow sequence dict input (.out ret coder.loc)
  | .put byte =>
    let (noRoom, dict) := dict.dictPut byte
    if noRoom then .out .ok coder dict input else .more (coder.jump .isMatch) dict input
  | .copy =>
    let (noRoom, len, dict) := dict.dictRepeat coder.loc.rep0 coder.loc.len
    let coder := { coder with loc := { coder.loc with len } }
    if noRoom then .out .ok coder dict input else .more (coder.jump .isMatch) dict input
  | .leave =>
    match coder.rc.rcNormalize input with
    | none => .out .ok (coder.jump .normalize) dict input
    | some (rc, input) => .out .ok ({ coder with rc }.jump .isMatch) dict input

/-- The code at a label reads and writes inside its arrays, takes from the dictionary only bytes
that were written, and its assertions hold. -/
def defined (coder : LzmaDecoder) (noEopm : Bool) (dict : Dict) : Bool :=
  let loc := coder.loc
  let action := coder.action noEopm dict
  action.inTable && action.asserted && dict.pos ≤ dict.limit && dict.limit ≤ dict.buf.length &&
    match loc.sequence with
    | .normalize | .isMatch => loc.state.isLiteralState || dict.dictIsDistanceValid loc.rep0
    | .posSlot k => k < 5 ||
      Local.slotAsserted (loc.shift false).symbol && Local.slotAsserted (loc.shift true).symbol
    | .posModel => loc.probs.inFront loc.symbol && 1 ≤ loc.limit && loc.limit ≤ 5 &&
      (loc.limit ≠ 5 || loc.offset = 0)
    | .direct => 1 ≤ loc.limit && loc.limit ≤ 26
    | .shortrep => dict.dictIsDistanceValid loc.rep0
    | .copy => dict.dictIsDistanceValid loc.rep0 && loc.len ≤ matchLenMax &&
      (loc.rep0.toNat < dict.pos || dict.full = dict.size)
    | _ => true

/-- The main loop, over at most the given number of labels. Nothing where the code at a label is not
defined, or where the loop has not ended. -/
def loop (noEopm : Bool) (sequence : Sequence) :
    ℕ → LzmaDecoder → Dict → Bytes → Option (Ret × LzmaDecoder × Dict × Bytes)
  | 0, _, _, _ => none
  | turns + 1, coder, dict, input =>
    if coder.defined noEopm dict then
      match coder.step noEopm sequence dict input with
      | .more coder dict input => loop noEopm sequence turns coder dict input
      | .out ret coder dict input => some (ret, coder, dict, input)
    else none

/-- Behind `out`: what is left of the uncompressed size, if it is known. -/
def countDecoded (coder : LzmaDecoder) (ret : Ret) (decoded : ℕ) : Ret × LzmaDecoder :=
  if coder.uncompressedSize ≠ vliUnknown then
    let uncompressedSize := coder.uncompressedSize - UInt64.ofNat decoded
    let ret :=
      if uncompressedSize = 0 ∧ ret = .ok ∧ coder.loc.sequence ≠ .normalize then
        if coder.loc.sequence = .isMatch then .streamEnd else .dataError
      else ret
    (ret, { coder with uncompressedSize })
  else (ret, coder)

/-- Behind `out`: with the check of the range decoder at the end. -/
def finish (coder : LzmaDecoder) (ret : Ret) (decoded : ℕ) : Ret × LzmaDecoder :=
  let (ret, coder) := coder.countDecoded ret decoded
  if ret = .streamEnd then
    (if coder.rc.rcIsFinished then .streamEnd else .dataError, { coder with rc := .rcReset })
  else (ret, coder)

/-- The dictionary of a call, with no more room than for the uncompressed size. -/
def limitDict (coder : LzmaDecoder) (dict : Dict) : Dict :=
  if coder.uncompressedSize ≠ vliUnknown ∧
      coder.uncompressedSize.toNat < dict.limit - dict.pos then
    { dict with limit := dict.pos + coder.uncompressedSize.toNat }
  else dict

/-- `lzma_decode`, with at most the given number of labels. -/
def lzmaDecode (turns : ℕ) (coder : LzmaDecoder) (dict : Dict) (input : Bytes) :
    Option (Ret × LzmaDecoder × Dict × Bytes) :=
  let (ready, rc, input) := coder.rc.rcReadInit input
  let coder := { coder with rc }
  if ready then
    (loop (coder.uncompressedSize ≠ vliUnknown) coder.loc.sequence turns coder
      (coder.limitDict dict) input).map fun (ret, coder, decoded, input) =>
        let (ret, coder) := coder.finish ret (decoded.pos - dict.pos)
        (ret, coder, { decoded with limit := dict.limit }, input)
  else some (.ok, coder, dict, input)

def lzmaDecoderUncompressed (coder : LzmaDecoder) (uncompressedSize : UInt64) : LzmaDecoder :=
  { coder with uncompressedSize }

/-- `lzma_decoder_reset`. The entries of the tables beyond those for the options, which the source
does not reset, are reset here, too; `NULL` stands as the first literal coder. -/
def lzmaDecoderReset (coder : LzmaDecoder) (options : Options) : LzmaDecoder :=
  { coder with
    probabilities := fun _ => bitReset
    rc := .rcReset
    loc := ⟨.isMatch, .litLit, 0, 0, 0, 0, .literal 0, 0, 0, 0, 0⟩
    posMask := (1 : UInt32) <<< options.pb - 1
    literalContextBits := options.lc
    literalPosMask := (1 : UInt32) <<< options.lp - 1 }

end LzmaDecoder
end Lzma
