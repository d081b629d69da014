import Zim.Lzma.RangeCoder
import Mathlib.Algebra.Group.Nat.Even

/-! What the LZMA encoder and decoder share (lzma/lzma_common.h and lzma/fastpos.h of liblzma): the
states, the tables of probabilities and the position slots. -/
namespace Lzma

/-- `lzma_ret`. -/
inductive Ret where
  | ok | streamEnd | optionsError | dataError | progError
  deriving DecidableEq, Repr

/-- The fields of `lzma_options_lzma` that encoder and decoder read. -/
structure Options where
  dictSize : UInt32
  lc : UInt32
  lp : UInt32
  pb : UInt32
  deriving DecidableEq, Repr

def lclpMax : UInt32 := 4
def pbMax : UInt32 := 4

def Options.isLclppbValid (options : Options) : Bool :=
  options.lc ≤ lclpMax && options.lp ≤ lclpMax && options.lc + options.lp ≤ lclpMax &&
    options.pb ≤ pbMax

/-- `lzma_lzma_state`. -/
inductive State where
  | litLit | matchLitLit | repLitLit | shortrepLitLit
  | matchLit | repLit | shortrepLit
  | litMatch | litLongrep | litShortrep | nonlitMatch | nonlitRep
  deriving DecidableEq, Repr

namespace State

def all : List State :=
  [litLit, matchLitLit, repLitLit, shortrepLitLit, matchLit, repLit, shortrepLit, litMatch,
    litLongrep, litShortrep, nonlitMatch, nonlitRep]

/-- The value of the enumerator. -/
def value (state : State) : ℕ := all.idxOf state

def ofValue (n : ℕ) : State := all.getD n litLit

def updateLiteral (state : State) : State :=
  if state.value ≤ shortrepLitLit.value then litLit
  else if state.value ≤ litShortrep.value then ofValue (state.value - 3)
  else ofValue (state.value - 6)

def isLiteralState (state : State) : Bool := state.value < 7

def updateMatch (state : State) : State := if state.isLiteralState then litMatch else nonlitMatch

def updateLongRep (state : State) : State := if state.isLiteralState then litLongrep else nonlitRep

def updateShortRep (state : State) : State :=
  if state.isLiteralState then litShortrep else nonlitRep

@[simp] theorem isLiteralState_updateLiteral (state : State) :
    state.updateLiteral.isLiteralState = true := by cases state <;> rfl

@[simp] theorem isLiteralState_updateMatch (state : State) :
    state.updateMatch.isLiteralState = false := by cases state <;> rfl

@[simp] theorem isLiteralState_updateLongRep (state : State) :
    state.updateLongRep.isLiteralState = false := by cases state <;> rfl

@[simp] theorem isLiteralState_updateShortRep (state : State) :
    state.updateShortRep.isLiteralState = false := by cases state <;> rfl

end State

/-- The two length coders. -/
inductive LenCoder where
  | matchLen | repLen
  deriving DecidableEq, Repr

/-- The probabilities of a coder, by table and index. -/
inductive Prob where
  | literal (coder index : ℕ)
  | isMatch (state : State) (posState : ℕ)
  | isRep (state : State)
  | isRep0 (state : State)
  | isRep1 (state : State)
  | isRep2 (state : State)
  | isRep0Long (state : State) (posState : ℕ)
  | posSlot (lenState index : ℕ)
  | posSpecial (index : ℕ)
  | posAlign (index : ℕ)
  | choice (len : LenCoder)
  | choice2 (len : LenCoder)
  | low (len : LenCoder) (posState index : ℕ)
  | mid (len : LenCoder) (posState index : ℕ)
  | high (len : LenCoder) (index : ℕ)
  deriving DecidableEq, Repr

abbrev Probs := Prob → Probability

/-- The index lies in the table as the coders declare it. -/
def Prob.inTable : Prob → Bool
  | literal coder index => coder < 16 && index < 0x300
  | isMatch _ posState => posState < 16
  | isRep0Long _ posState => posState < 16
  | posSlot lenState index => lenState < 4 && index < 64
  | posSpecial index => index < 114
  | posAlign index => index < 16
  | low _ posState index => posState < 16 && index < 8
  | mid _ posState index => posState < 16 && index < 8
  | high _ index => index < 256
  | _ => true

/-- The number of the coder that `literal_subcoder` locates. -/
def literalSubcoder (lc lpMask pos : ℕ) (prevByte : UInt8) : ℕ :=
  (pos &&& lpMask) <<< lc + prevByte.toNat >>> (8 - lc)

def matchLenMin : UInt32 := 2
def lenLowSymbols : UInt32 := 8
def lenMidSymbols : UInt32 := 8
def lenHighSymbols : UInt32 := 256
def lenSymbols : UInt32 := lenLowSymbols + lenMidSymbols + lenHighSymbols
def matchLenMax : UInt32 := matchLenMin + lenSymbols - 1

def lenToPosStates : UInt32 := 4

def getLenToPosState (len : UInt32) : UInt32 :=
  if len < lenToPosStates + matchLenMin then len - matchLenMin else lenToPosStates - 1

def posSlots : UInt32 := 64
def startPosModelIndex : UInt32 := 4
def endPosModelIndex : UInt32 := 14
def alignBits : UInt32 := 4
def alignTableSize : UInt32 := 16
def alignMask : UInt32 := alignTableSize - 1

/-- The entries of `lzma_fastpos` from the second on, as fastpos_tablegen.c makes them. -/
def fastposSlots : List ℕ :=
  (List.range 24).flatMap fun i => List.replicate (2 ^ ((i + 2) / 2 - 1)) (i + 2)

/-- `lzma_fastpos`. -/
def fastpos : List ℕ := 0 :: 1 :: fastposSlots

def fastposBits : ℕ := 13

def fastposShift (n : ℕ) : ℕ := n * (fastposBits - 1)

def fastposLimit (n : ℕ) : ℕ := 2 ^ (fastposBits + fastposShift n)

def fastposResult (pos n : ℕ) : ℕ := fastpos.getD (pos >>> fastposShift n) 0 + 2 * fastposShift n

def getPosSlot (pos : UInt32) : UInt32 :=
  let pos := pos.toNat
  UInt32.ofNat <|
    if pos < fastposLimit 0 then fastpos.getD pos 0
    else if pos < fastposLimit 1 then fastposResult pos 1
    else fastposResult pos 2

end Lzma
