import Zim.Lzma.DecoderLabels
import Zim.Lzma.LzmaEncoder
import Zim.Lzma.PosSlots

/-! The bits of the LZMA encoder lead the decoder from label to label: those of a tree, of a length,
of a distance and of a literal. The range coder between the two is left out. -/
namespace Lzma
open Cxx

/-- The decoder goes from one place to another when it gets the given symbols. -/
inductive Path (coder : LzmaDecoder) (noEopm : Bool) (dict : Dict) :
    Next → List (Symbol Prob) → Next → Prop
  | nil {next} : Path coder noEopm dict next [] next
  | bit {loc prob f b symbols last} (h : { coder with loc }.action noEopm dict = .bit prob f)
      (rest : Path coder noEopm dict (f b) symbols last) :
      Path coder noEopm dict (.label loc) (.bit prob b :: symbols) last
  | direct {loc f b symbols last} (h : { coder with loc }.action noEopm dict = .direct f)
      (rest : Path coder noEopm dict (f b) symbols last) :
      Path coder noEopm dict (.label loc) (.direct b :: symbols) last

/-- What the encoder writes between two of its states leads the decoder from one place to
another. -/
def Writes (coder : LzmaDecoder) (noEopm : Bool) (dict : Dict) (rc rc' : RangeEncoder Prob)
    (next next' : Next) : Prop :=
  ∃ symbols, rc'.symbols = rc.symbols ++ symbols ∧ Path coder noEopm dict next symbols next'

section Writes
variable {coder : LzmaDecoder} {noEopm : Bool} {dict : Dict} {rc rc' rc'' : RangeEncoder Prob}
  {a b c : Next} {loc : Local}

theorem Path.trans {symbols symbols' : List (Symbol Prob)}
    (h : Path coder noEopm dict a symbols b) (h' : Path coder noEopm dict b symbols' c) :
    Path coder noEopm dict a (symbols ++ symbols') c := by
  induction h with
  | nil => exact h'
  | bit hact _ ih => exact .bit hact (ih h')
  | direct hact _ ih => exact .direct hact (ih h')

namespace Writes

theorem refl : Writes coder noEopm dict rc rc a a := ⟨[], (List.append_nil _).symm, .nil⟩

theorem trans (h : Writes coder noEopm dict rc rc' a b)
    (h' : Writes coder noEopm dict rc' rc'' b c) : Writes coder noEopm dict rc rc'' a c := by
  obtain ⟨symbols, hsymbols, hpath⟩ := h
  obtain ⟨symbols', hsymbols', hpath'⟩ := h'
  exact ⟨symbols ++ symbols', by rw [hsymbols', hsymbols, List.append_assoc], hpath.trans hpath'⟩

theorem bit (rc : RangeEncoder Prob) {prob : Prob} {f : Bool → Next} (bit : Bool)
    (h : { coder with loc }.action noEopm dict = .bit prob f) :
    Writes coder noEopm dict rc (rc.rcBit prob bit) (.label loc) (f bit) :=
  ⟨[.bit prob bit], rfl, .bit h .nil⟩

theorem bit_to {prob : Prob} {f : Bool → Next} {bit : Bool}
    (h : { coder with loc }.action noEopm dict = .bit prob f) (hnext : f bit = a) :
    Writes coder noEopm dict rc (rc.rcBit prob bit) (.label loc) a :=
  hnext ▸ Writes.bit rc bit h

theorem direct_to {f : Bool → Next} {bit : Bool}
    (h : { coder with loc }.action noEopm dict = .direct f) (hnext : f bit = a) :
    Writes coder noEopm dict rc { rc with symbols := rc.symbols ++ [.direct bit] } (.label loc) a :=
  hnext ▸ ⟨[.direct bit], rfl, .direct h .nil⟩

/-- A distance that does not mark the end is checked alike on all ways. -/
theorem align (h : Writes coder noEopm dict rc rc' a (loc.validate dict))
    (hne : loc.rep0 ≠ 0xFFFFFFFF) :
    Writes coder noEopm dict rc rc' a (loc.alignDone noEopm dict) := by
  rw [Local.alignDone, if_neg hne]
  exact h

/-- The node behind the next bit. -/
theorem node_next {symbol s : UInt32} {n k j : ℕ} (hn : n ≤ 8) (hsymbol : symbol.toNat < 2 ^ n)
    (hk : k + (j + 1) = n) (hs : s.toNat = 2 ^ k + symbol.toNat / 2 ^ (j + 1)) :
    (s <<< 1 + bif symbol.toNat.testBit j then 1 else 0).toNat =
      2 * s.toNat + (symbol.toNat.testBit j).toNat ∧
    (s <<< 1 + bif symbol.toNat.testBit j then 1 else 0).toNat =
      2 ^ (k + 1) + symbol.toNat / 2 ^ j := by
  have hpow : 2 ^ k ≤ 2 ^ 8 := Nat.pow_le_pow_right (by decide) (by omega)
  have hlt : symbol.toNat < 2 ^ 8 :=
    Nat.lt_of_lt_of_le hsymbol (Nat.pow_le_pow_right (by decide) hn)
  have hdiv := Nat.div_le_self symbol.toNat (2 ^ (j + 1))
  have hshift := toNat_shift (show s.toNat < 2 ^ 31 by omega) (symbol.toNat.testBit j)
  refine ⟨hshift, ?_⟩
  have hbit : (symbol.toNat.testBit j).toNat = symbol.toNat / 2 ^ j % 2 := by
    rw [Nat.toNat_testBit]
  rw [hshift, hs, hbit, pow_succ, pow_succ, ← Nat.div_div_eq_div_mul]
  omega

/-- The bits of a tree, from the highest one down. -/
theorem tree (rc : RangeEncoder Prob) {probs : ℕ → Prob} (place : UInt32 → ℕ → Local)
    (done : UInt32 → Next) {n : ℕ}
    (hn : n ≤ 7) {f : UInt32 → ℕ → Bool → Next}
    (hact : ∀ s k, { coder with loc := place s k }.action noEopm dict =
      .bit (probs s.toNat) (f s k))
    (hmore : ∀ s k bit, k < n →
      f s k bit = .label (place (s <<< 1 + bif bit then 1 else 0) (k + 1)))
    (hlast : ∀ s bit, f s n bit = done (s <<< 1 + bif bit then 1 else 0))
    {symbol : UInt32} (hsymbol : symbol.toNat < 2 ^ (n + 1)) :
    Writes coder noEopm dict rc (rc.rcBittree probs (n + 1) symbol) (.label (place 1 0))
      (done (UInt32.ofNat (2 ^ (n + 1)) + symbol)) := by
  -- `k` bits were written, which led to the node `s`
  have hgo : ∀ j k s rc, k + j = n →
      s.toNat = 2 ^ k + symbol.toNat / 2 ^ (j + 1) → Writes coder noEopm dict rc
        (RangeEncoder.rcBittree.go probs symbol rc s.toNat (j + 1)) (.label (place s k))
        (done (UInt32.ofNat (2 ^ (n + 1)) + symbol)) := by
    intro j
    induction j with
    | zero =>
      intro k s rc hk hs
      obtain rfl : k = n := hk
      obtain ⟨-, hnode⟩ := node_next (show k + 1 ≤ 8 by omega) hsymbol rfl hs
      have hbit := Writes.bit rc (symbol.toNat.testBit 0) (hact s k)
      rw [hlast s, ← UInt32.ofNat_toNat (x := _ + _), hnode, pow_zero, Nat.div_one,
        UInt32.ofNat_add, UInt32.ofNat_toNat] at hbit
      exact hbit
    | succ j ih =>
      intro k s rc hk hs
      obtain ⟨hnode, hs'⟩ := node_next (show n + 1 ≤ 8 by omega) hsymbol (by omega) hs
      have hbit := Writes.bit rc (symbol.toNat.testBit (j + 1)) (hact s k)
      rw [hmore s k _ (by omega)] at hbit
      have hrest := ih (k + 1) _ (rc.rcBit (probs s.toNat) (symbol.toNat.testBit (j + 1)))
        (by omega) hs'
      rw [hnode] at hrest
      exact hbit.trans hrest
  apply hgo n 0 1 rc (Nat.zero_add n)
  rw [Nat.div_eq_of_lt hsymbol]
  rfl

end Writes
end Writes

section Length
variable (coder : LzmaDecoder) (noEopm : Bool) (dict : Dict)

/-- A length, in whichever of the three trees it lies. -/
theorem length_writes (rc : RangeEncoder Prob) (loc : Local) (lc : LenCoder) (posState : ℕ)
    (seq : LenSequence → Sequence) (behind : Local → Next) {len : UInt32}
    (hlen : 2 ≤ len.toNat ∧ len.toNat ≤ 273)
    (hone : loc.symbol = 1)
    (hact : ∀ symbol s, LzmaDecoder.action
      { coder with loc := { loc with symbol, sequence := seq s } } noEopm dict =
      { loc with symbol, sequence := seq s }.lenDecode lc posState seq behind s) :
    ∃ symbol s, Writes coder noEopm dict rc (LzmaEncoder.length rc lc posState len)
      (.label { loc with sequence := seq .choice })
      (behind { loc with symbol, sequence := seq s, len }) := by
  have hlow : lenLowSymbols.toNat = 8 := rfl
  have hmid : lenMidSymbols.toNat = 8 := rfl
  have hsub : (len - matchLenMin).toNat = len.toNat - 2 :=
    UInt32.toNat_sub_of_le _ _ (UInt32.le_iff_toNat_le.mpr hlen.1)
  have hplace : loc = { loc with symbol := 1 } := by rw [← hone]
  have hchoice (bit : Bool) := Writes.bit rc bit (hact 1 .choice)
  unfold LzmaEncoder.length
  dsimp only
  rw [hplace]
  split_ifs with hlt hlt'
  · rw [UInt32.lt_iff_toNat_lt, hlow] at hlt
    have htree := Writes.tree (rc.rcBit (.choice lc) false)
      (fun s k => { loc with symbol := s, sequence := seq (.low k) })
      (fun s => behind { loc with
        symbol := s
        sequence := seq (.low 2)
        len := s - lenLowSymbols + matchLenMin })
      (show 2 ≤ 7 by decide) (fun s k => hact s (.low k)) (fun s k bit hk => if_pos hk)
      (fun s bit => rfl) hlt
    have hback :
        UInt32.ofNat (2 ^ 3) + (len - matchLenMin) - lenLowSymbols + matchLenMin = len := by
      unfold lenLowSymbols matchLenMin
      grind
    rw [hback] at htree
    exact ⟨_, _, (hchoice false).trans htree⟩
  · rw [UInt32.lt_iff_toNat_lt, hlow] at hlt
    rw [UInt32.lt_iff_toNat_lt, hmid] at hlt'
    have hchoice2 := Writes.bit (rc.rcBit (.choice lc) true) false (hact 1 .choice2)
    have htree := Writes.tree ((rc.rcBit (.choice lc) true).rcBit (.choice2 lc) false)
      (fun s k => { loc with symbol := s, sequence := seq (.mid k) })
      (fun s => behind { loc with
        symbol := s
        sequence := seq (.mid 2)
        len := s - lenMidSymbols + matchLenMin + lenLowSymbols })
      (show 2 ≤ 7 by decide) (fun s k => hact s (.mid k)) (fun s k bit hk => if_pos hk)
      (fun s bit => rfl) hlt'
    have hback : UInt32.ofNat (2 ^ 3) + (len - matchLenMin - lenLowSymbols) - lenMidSymbols +
        matchLenMin + lenLowSymbols = len := by
      unfold lenLowSymbols lenMidSymbols matchLenMin
      grind
    rw [hback] at htree
    exact ⟨_, _, ((hchoice true).trans hchoice2).trans htree⟩
  · rw [UInt32.lt_iff_toNat_lt, hlow, hsub] at hlt
    have hsub' : (len - matchLenMin - lenLowSymbols).toNat = len.toNat - 2 - 8 := by
      rw [UInt32.toNat_sub_of_le, hsub, hlow]
      rw [UInt32.le_iff_toNat_le, hsub, hlow]
      omega
    rw [UInt32.lt_iff_toNat_lt, hmid, hsub'] at hlt'
    have hsub'' : (len - matchLenMin - lenLowSymbols - lenMidSymbols).toNat < 2 ^ 8 := by
      rw [UInt32.toNat_sub_of_le, hsub', hmid]
      · omega
      · rw [UInt32.le_iff_toNat_le, hsub', hmid]
        omega
    have hchoice2 := Writes.bit (rc.rcBit (.choice lc) true) true (hact 1 .choice2)
    have htree := Writes.tree ((rc.rcBit (.choice lc) true).rcBit (.choice2 lc) true)
      (fun s k => { loc with symbol := s, sequence := seq (.high k) })
      (fun s => behind { loc with
        symbol := s
        sequence := seq (.high 7)
        len := s - lenHighSymbols + matchLenMin + lenLowSymbols + lenMidSymbols })
      (show 7 ≤ 7 by decide) (fun s k => hact s (.high k)) (fun s k bit hk => if_pos hk)
      (fun s bit => rfl) hsub''
    have hback : UInt32.ofNat (2 ^ 8) + (len - matchLenMin - lenLowSymbols - lenMidSymbols) -
        lenHighSymbols + matchLenMin + lenLowSymbols + lenMidSymbols = len := by
      unfold lenLowSymbols lenMidSymbols lenHighSymbols matchLenMin
      grind
    rw [hback] at htree
    exact ⟨_, _, ((hchoice true).trans hchoice2).trans htree⟩

end Length

/-- What the bits of a distance leave as it is. -/
structure Same (loc loc' : Local) : Prop where
  state : loc'.state = loc.state
  rep1 : loc'.rep1 = loc.rep1
  rep2 : loc'.rep2 = loc.rep2
  rep3 : loc'.rep3 = loc.rep3
  len : loc'.len = loc.len

theorem one_shiftLeft {offset : UInt32} (h : offset.toNat < 32) (bit : Bool) :
    (bif bit then (1 : UInt32) <<< offset else 0) =
      UInt32.ofNat (bit.toNat * 2 ^ offset.toNat) := by
  cases bit with
  | false =>
    show (0 : UInt32) = UInt32.ofNat (0 * _)
    rw [Nat.zero_mul]
    rfl
  | true =>
    show (1 : UInt32) <<< offset = UInt32.ofNat (1 * 2 ^ offset.toNat)
    apply UInt32.toNat_inj.mp
    rw [UInt32.toNat_shiftLeft, Nat.mod_eq_of_lt h, Nat.shiftLeft_eq, UInt32.toNat_ofNat']
    rfl

theorem shiftLeft_ofNat {k : ℕ} (h : k < 32) (bit : Bool) :
    (bif bit then (1 : UInt32) <<< UInt32.ofNat k else 0) =
      UInt32.ofNat (bit.toNat * 2 ^ k) := by
  have hofNat : (UInt32.ofNat k).toNat = k := by
    rw [UInt32.toNat_ofNat', Nat.mod_eq_of_lt (by omega)]
  have hshift := one_shiftLeft (show (UInt32.ofNat k).toNat < 32 by omega) bit
  rwa [hofNat] at hshift

theorem double_add (r : ℕ) (bit : Bool) :
    UInt32.ofNat r <<< 1 + (bif bit then 1 else 0) = UInt32.ofNat (2 * r + bit.toNat) := by
  have hshift : UInt32.ofNat r <<< 1 = UInt32.ofNat (2 * r) := by
    apply UInt32.toNat_inj.mp
    rw [UInt32.toNat_shiftLeft, Nat.shiftLeft_eq, UInt32.toNat_ofNat', UInt32.toNat_ofNat']
    show r % 2 ^ 32 * 2 % 2 ^ 32 = 2 * r % 2 ^ 32
    omega
  rw [hshift, UInt32.ofNat_add]
  cases bit <;> rfl

theorem shiftLeft_alignBits (n : ℕ) : UInt32.ofNat n <<< alignBits = UInt32.ofNat (n * 16) := by
  have halign : alignBits.toNat % 32 = 4 := rfl
  apply UInt32.toNat_inj.mp
  rw [UInt32.toNat_shiftLeft, halign, Nat.shiftLeft_eq, UInt32.toNat_ofNat', UInt32.toNat_ofNat']
  show n % 2 ^ 32 * 16 % 2 ^ 32 = n * 16 % 2 ^ 32
  omega

/-- The sum behind a bit more, from the lowest one up. -/
theorem ofNat_bits (symbol offset : ℕ) :
    UInt32.ofNat ((symbol.testBit 0).toNat * 2 ^ offset) +
      UInt32.ofNat (symbol / 2 * 2 ^ (offset + 1)) = UInt32.ofNat (symbol * 2 ^ offset) := by
  have hbit : (symbol.testBit 0).toNat = symbol % 2 := by
    rw [Nat.toNat_testBit, pow_zero, Nat.div_one]
  rw [← UInt32.ofNat_add, hbit, pow_succ, Nat.mul_comm (2 ^ offset) 2, ← Nat.mul_assoc,
    ← Nat.add_mul, Nat.mul_comm (symbol / 2), Nat.mod_add_div]

section Distance
variable (coder : LzmaDecoder) (noEopm : Bool) (dict : Dict)

/-- The bits of a reversed tree of a small distance. -/
theorem posModel_writes {base : ℤ} {j : ℕ} (loc : Local) (node limit offset rep0 : UInt32)
    (symbol : ℕ) (rc : RangeEncoder Prob) (hlimit : limit.toNat = j + 1)
    (hle : offset.toNat + j ≤ 5) (htree : InTree node offset.toNat)
    (hsymbol : symbol < 2 ^ (j + 1)) :
    ∃ loc', Writes coder noEopm dict rc (RangeEncoder.rcBittreeReverse.go
        (fun i => .posSpecial (base + i).toNat) rc node.toNat symbol (j + 1))
        (.label { loc with
          sequence := .posModel
          probs := .posSpecial base
          symbol := node
          limit
          offset
          rep0 }) (loc'.validate dict) ∧ Same loc loc' ∧
      loc'.rep0 = rep0 + UInt32.ofNat (symbol * 2 ^ offset.toNat) := by
  induction j generalizing node limit offset rep0 symbol rc with
  | zero =>
    obtain rfl : limit = 1 := UInt32.toNat_inj.mp hlimit
    have hshift := one_shiftLeft (show offset.toNat < 32 by omega) (symbol.testBit 0)
    have hbit : (symbol.testBit 0).toNat = symbol := by
      rw [Nat.toNat_testBit, pow_zero, Nat.div_one]
      exact Nat.mod_eq_of_lt hsymbol
    refine ⟨_, Writes.bit_to rfl (if_pos rfl), ⟨rfl, rfl, rfl, rfl, rfl⟩, ?_⟩
    dsimp only
    rw [hshift, hbit]
  | succ j ih =>
    have hshift := one_shiftLeft (show offset.toNat < 32 by omega) (symbol.testBit 0)
    have hone : (1 : UInt32).toNat = 1 := rfl
    have hnot : limit ≠ 1 := by
      rintro rfl
      omega
    have hadd : (offset + 1).toNat = offset.toNat + 1 := by
      rw [UInt32.toNat_add]
      exact Nat.mod_eq_of_lt (by show offset.toNat + 1 < 2 ^ 32; omega)
    have hsub : (limit - 1).toNat = j + 1 := by
      rw [UInt32.toNat_sub_of_le, hlimit, hone]
      · omega
      · rw [UInt32.le_iff_toNat_le, hlimit, hone]
        omega
    have hpow : 2 ^ (offset.toNat + 1) ≤ 2 ^ 6 := Nat.pow_le_pow_right (by decide) (by omega)
    have hnode : node.toNat < 2 ^ 31 :=
      Nat.lt_of_lt_of_le htree.2 (Nat.le_trans hpow (by decide))
    have htree' := htree.shift (by omega) (symbol.testBit 0)
    rw [← hadd] at htree'
    obtain ⟨loc', hwrites, hsame, hrep0⟩ := ih _ (limit - 1) (offset + 1)
      (rep0 + bif symbol.testBit 0 then 1 <<< offset else 0) (symbol / 2)
      (rc.rcBit (.posSpecial (base + node.toNat).toNat) (symbol.testBit 0)) hsub (by omega)
      htree' (by rw [pow_succ] at hsymbol; omega)
    rw [toNat_shift hnode] at hwrites
    refine ⟨loc', (Writes.bit_to rfl (if_neg hnot)).trans hwrites, hsame, ?_⟩
    rw [hrep0, hshift, hadd, UInt32.add_assoc, ofNat_bits]

/-- The lowest bits of a large distance. -/
theorem align_writes {j k : ℕ} (loc : Local) (node rep0 : UInt32) (symbol : ℕ)
    (rc : RangeEncoder Prob) (hk : k + j = 3) (htree : InTree node k)
    (hsymbol : symbol < 2 ^ (j + 1)) :
    ∃ loc', Writes coder noEopm dict rc (RangeEncoder.rcBittreeReverse.go
        (fun i => .posAlign i) rc node.toNat symbol (j + 1))
        (.label { loc with sequence := .align k, symbol := node, rep0 })
        (loc'.alignDone noEopm dict) ∧ Same loc loc' ∧
      loc'.rep0 = rep0 + UInt32.ofNat (symbol * 2 ^ k) := by
  induction j generalizing k node rep0 symbol rc with
  | zero =>
    have hshift := shiftLeft_ofNat (show k < 32 by omega) (symbol.testBit 0)
    have hbit : (symbol.testBit 0).toNat = symbol := by
      rw [Nat.toNat_testBit, pow_zero, Nat.div_one]
      exact Nat.mod_eq_of_lt hsymbol
    refine ⟨_, Writes.bit_to rfl (if_neg (by omega)), ⟨rfl, rfl, rfl, rfl, rfl⟩, ?_⟩
    dsimp only
    rw [hshift, hbit]
  | succ j ih =>
    have hshift := shiftLeft_ofNat (show k < 32 by omega) (symbol.testBit 0)
    have hpow : 2 ^ (k + 1) ≤ 2 ^ 4 := Nat.pow_le_pow_right (by decide) (by omega)
    have hnode : node.toNat < 2 ^ 31 :=
      Nat.lt_of_lt_of_le htree.2 (Nat.le_trans hpow (by decide))
    obtain ⟨loc', hwrites, hsame, hrep0⟩ := ih _
      (rep0 + bif symbol.testBit 0 then 1 <<< UInt32.ofNat k else 0) (symbol / 2)
      (rc.rcBit (.posAlign node.toNat) (symbol.testBit 0)) (by omega)
      (htree.shift (by omega) (symbol.testBit 0)) (by rw [pow_succ] at hsymbol; omega)
    rw [toNat_shift hnode] at hwrites
    refine ⟨loc', (Writes.bit_to rfl (if_pos (by omega))).trans hwrites, hsame, ?_⟩
    rw [hrep0, hshift, UInt32.add_assoc, ofNat_bits]

/-- The bits of a large distance in between. -/
theorem direct_writes {j : ℕ} (loc : Local) (limit : UInt32) (r : ℕ) (value : UInt32)
    (rc : RangeEncoder Prob) (hlimit : limit.toNat = j + 1) :
    ∃ limit', Writes coder noEopm dict rc (rc.rcDirect value (j + 1))
      (.label { loc with sequence := .direct, limit, rep0 := UInt32.ofNat r })
      (.label { loc with
        sequence := .align 0
        limit := limit'
        symbol := 1
        rep0 := UInt32.ofNat (r * 2 ^ (j + 1) + value.toNat % 2 ^ (j + 1)) <<< alignBits }) := by
  have hone : (1 : UInt32).toNat = 1 := rfl
  have hsub : (limit - 1).toNat = j := by
    rw [UInt32.toNat_sub_of_le, hlimit, hone]
    · omega
    · rw [UInt32.le_iff_toNat_le, hlimit, hone]
      omega
  have hbit : (value.toNat.testBit j).toNat = value.toNat / 2 ^ j % 2 := by
    rw [Nat.toNat_testBit]
  have hrep0 := double_add r (value.toNat.testBit j)
  induction j generalizing limit r rc with
  | zero =>
    have hnot : ¬ (0 : UInt32) < limit - 1 := by
      rw [UInt32.lt_iff_toNat_lt, hsub]
      exact Nat.lt_irrefl 0
    have hsum : r * 2 ^ (0 + 1) + value.toNat % 2 ^ (0 + 1) =
        2 * r + (value.toNat.testBit 0).toNat := by
      rw [hbit]
      omega
    refine ⟨limit - 1, ?_⟩
    rw [hsum, ← hrep0]
    exact Writes.direct_to rfl (if_neg hnot)
  | succ j ih =>
    have hlt : (0 : UInt32) < limit - 1 := by
      rw [UInt32.lt_iff_toNat_lt, hsub]
      exact Nat.succ_pos j
    have hsub' : (limit - 1 - 1).toNat = j := by
      rw [UInt32.toNat_sub_of_le, hsub, hone]
      · omega
      · rw [UInt32.le_iff_toNat_le, hsub, hone]
        omega
    obtain ⟨limit', hwrites⟩ := ih (limit - 1) (2 * r + (value.toNat.testBit (j + 1)).toNat)
      { rc with symbols := rc.symbols ++ [.direct (value.toNat.testBit (j + 1))] } hsub hsub'
      (by rw [Nat.toNat_testBit]) (double_add _ _)
    have hsum : (2 * r + (value.toNat.testBit (j + 1)).toNat) * 2 ^ (j + 1) +
        value.toNat % 2 ^ (j + 1) = r * 2 ^ (j + 1 + 1) + value.toNat % 2 ^ (j + 1 + 1) := by
      rw [hbit, pow_succ 2 (j + 1), Nat.mod_mul]
      ring
    rw [hsum, ← hrep0] at hwrites
    exact ⟨limit', (Writes.direct_to rfl (if_pos hlt)).trans hwrites⟩

/-- What encoder and decoder make of a distance in a slot from 4 on. -/
structure Coded (distance slot : UInt32) : Prop where
  limit : (slot >>> 1 - 1).toNat = slot.toNat / 2 - 1
  or_eq : 2 ||| (slot &&& 1) = 2 + (slot &&& 1)
  first : 2 + (slot &&& 1) = UInt32.ofNat (2 + slot.toNat % 2)
  reduced : (distance - (2 + (slot &&& 1)) <<< (slot >>> 1 - 1)).toNat =
    distance.toNat - slotStart slot.toNat
  start_le : slotStart slot.toNat ≤ distance.toNat
  lt : distance.toNat < slotStart slot.toNat + 2 ^ (slot.toNat / 2 - 1)

theorem coded_getPosSlot {distance : UInt32} (hge : 4 ≤ (getPosSlot distance).toNat) :
    Coded distance (getPosSlot distance) := by
  have hin := getPosSlot_inSlot (two_le_of_slot hge)
  obtain ⟨hlimit, hor, hfirst, hbase⟩ := slot_coded _ (getPosSlot_lt distance) hge
  rw [UInt32.ofNat_toNat] at hlimit hor hfirst hbase
  have hlt := hin.lt
  rw [slotStart_succ hin.two_le] at hlt
  refine ⟨hlimit, hor, hfirst, ?_, hin.start_le, hlt⟩
  rw [UInt32.toNat_sub_of_le, hbase]
  rw [UInt32.le_iff_toNat_le, hbase]
  exact hin.start_le

section Slots
variable (loc : Local) (rc : RangeEncoder Prob) {distance slot : UInt32}

/-- The bits behind a slot below 14. -/
theorem modelSlot_writes (h : Coded distance slot) (hge : 4 ≤ slot.toNat) (hlt : slot.toNat < 14)
    (hne : distance ≠ 0xFFFFFFFF) :
    let base := (2 + (slot &&& 1)) <<< (slot >>> 1 - 1)
    ∃ loc', Writes coder noEopm dict rc
        (rc.rcBittreeReverse (fun i => .posSpecial ((base.toNat : ℤ) - slot.toNat - 1 + i).toNat)
          (slot >>> 1 - 1).toNat (distance - base))
        ({ loc with
          symbol := 1
          limit := slot >>> 1 - 1
          rep0 := base
          probs := .posSpecial ((base.toNat : ℤ) - slot.toNat - 1)
          offset := 0 }.goto .posModel)
        (loc'.alignDone noEopm dict) ∧ Same loc loc' ∧ loc'.rep0 = distance := by
  intro base
  obtain ⟨j, hj⟩ := Nat.exists_eq_add_of_le' (show 1 ≤ slot.toNat / 2 - 1 by omega)
  have hlimit := h.limit
  have hrange := h.lt
  rw [hj] at hlimit hrange
  have hbits : (distance - base).toNat < 2 ^ (j + 1) := by
    have hpos := Nat.two_pow_pos j
    rw [h.reduced]
    omega
  rw [RangeEncoder.rcBittreeReverse, hlimit]
  obtain ⟨loc', hwrites, hsame, hrep0⟩ := posModel_writes coder noEopm dict loc 1
    (slot >>> 1 - 1) 0 base _ rc hlimit (show 0 + j ≤ 5 by omega) Local.inTree_one hbits
  have hdistance : loc'.rep0 = distance := by
    rw [hrep0]
    show _ + UInt32.ofNat (_ * 1) = _
    rw [Nat.mul_one, UInt32.ofNat_toNat]
    rw [UInt32.add_comm, UInt32.sub_add_cancel]
  exact ⟨loc', hwrites.align (by rwa [hdistance]), hsame, hdistance⟩

/-- The bits behind a slot from 14 on: the last four have a tree of their own. -/
theorem alignSlot_writes (h : Coded distance slot) (hge : 14 ≤ slot.toNat) :
    let base := (2 + (slot &&& 1)) <<< (slot >>> 1 - 1)
    ∃ loc', Writes coder noEopm dict rc
        ((rc.rcDirect ((distance - base) >>> alignBits)
          (slot >>> 1 - 1 - alignBits).toNat).rcBittreeReverse (fun i => .posAlign i)
            alignBits.toNat ((distance - base) &&& alignMask))
        ({ loc with
          limit := slot >>> 1 - 1 - alignBits
          rep0 := 2 + (slot &&& 1) }.goto .direct)
        (loc'.alignDone noEopm dict) ∧ Same loc loc' ∧ loc'.rep0 = distance := by
  intro base
  have halign : alignBits.toNat = 4 := rfl
  obtain ⟨j, hj⟩ := Nat.exists_eq_add_of_le' (show 5 ≤ slot.toNat / 2 - 1 by omega)
  have hlimit := h.limit
  have hrange := h.lt
  rw [hj] at hlimit hrange
  have hdirect : (slot >>> 1 - 1 - alignBits).toNat = j + 1 := by
    rw [UInt32.toNat_sub_of_le, hlimit, halign]
    · omega
    · rw [UInt32.le_iff_toNat_le, hlimit, halign]
      omega
  have hshift (r : UInt32) : (r >>> alignBits).toNat = r.toNat / 16 := by
    rw [UInt32.toNat_shiftRight, halign, Nat.shiftRight_eq_div_pow]
  have hmask (r : UInt32) : (r &&& alignMask).toNat = r.toNat % 16 := by
    rw [UInt32.toNat_and]
    exact Nat.and_two_pow_sub_one_eq_mod r.toNat 4
  rw [RangeEncoder.rcBittreeReverse, hdirect, halign, h.first]
  obtain ⟨limit', hdirect'⟩ := direct_writes coder noEopm dict loc _ (2 + slot.toNat % 2)
    ((distance - base) >>> alignBits) rc hdirect
  obtain ⟨loc', hwrites, hsame, hrep0⟩ := align_writes coder noEopm dict (j := 3) (k := 0)
    { loc with limit := limit' } 1 _ ((distance - base) &&& alignMask).toNat _ rfl
    Local.inTree_one (by rw [hmask]; exact Nat.mod_lt _ (by decide))
  refine ⟨loc', hdirect'.trans hwrites,
    ⟨hsame.state, hsame.rep1, hsame.rep2, hsame.rep3, hsame.len⟩, ?_⟩
  have hlarge : slotStart slot.toNat = (2 + slot.toNat % 2) * 2 ^ (j + 1) * 16 := by
    rw [slotStart, hj, show j + 5 = j + 1 + 4 from rfl, pow_add _ (j + 1) 4, ← Nat.mul_assoc]
    rfl
  have hless : (distance.toNat - slotStart slot.toNat) / 16 < 2 ^ (j + 1) := by
    rw [show j + 5 = j + 1 + 4 from rfl, pow_add _ (j + 1) 4] at hrange
    have hpos := Nat.two_pow_pos (j + 1)
    omega
  have hsum : ((2 + slot.toNat % 2) * 2 ^ (j + 1) +
      (distance.toNat - slotStart slot.toNat) / 16) * 16 +
      (distance.toNat - slotStart slot.toNat) % 16 = distance.toNat := by
    have hle := h.start_le
    rw [Nat.add_mul, ← hlarge]
    omega
  rw [hrep0, hshift, hmask, h.reduced, Nat.mod_eq_of_lt hless, shiftLeft_alignBits, pow_zero,
    Nat.mul_one, ← UInt32.ofNat_add, hsum, UInt32.ofNat_toNat]

end Slots

/-- What the decoder makes of all bits of a distance. -/
theorem distance_writes (loc : Local) (distance len : UInt32) (rc : RangeEncoder Prob) :
    ∃ loc', Writes coder noEopm dict rc (LzmaEncoder.distance rc distance len)
      (.label { loc with
        sequence := .posSlot 0
        probs := .posSlot (getLenToPosState len).toNat
        symbol := 1 })
      (loc'.alignDone noEopm dict) ∧ Same loc loc' ∧ loc'.rep0 = distance := by
  have htree : Writes coder noEopm dict _ _ _ _ := Writes.tree rc
    (fun s k => { loc with
      sequence := .posSlot k
      probs := .posSlot (getLenToPosState len).toNat
      symbol := s })
    (fun s => { loc with
      sequence := .posSlot 5
      probs := .posSlot (getLenToPosState len).toNat
      symbol := s }.slotDone dict)
    (show 5 ≤ 7 by decide) (fun s k => rfl) (fun s k bit hk => if_pos hk) (fun s bit => rfl)
    (getPosSlot_lt distance)
  have hback : UInt32.ofNat (2 ^ (5 + 1)) + getPosSlot distance - posSlots =
      getPosSlot distance := by
    unfold posSlots
    grind
  unfold LzmaEncoder.distance
  dsimp only
  unfold Local.slotDone at htree
  dsimp only at htree
  rw [hback] at htree
  by_cases hsmall : getPosSlot distance < startPosModelIndex
  · have hlt : (getPosSlot distance).toNat < 4 := hsmall
    have heq := getPosSlot_small hlt
    rw [if_pos hsmall, heq] at htree
    rw [if_neg (UInt32.not_le.mpr hsmall), heq]
    have hne : distance ≠ 0xFFFFFFFF := by
      rintro rfl
      exact absurd hlt (by decide)
    exact ⟨_, htree.align hne, ⟨rfl, rfl, rfl, rfl, rfl⟩, rfl⟩
  · have hge : 4 ≤ (getPosSlot distance).toNat := Nat.le_of_not_lt hsmall
    have hcoded := coded_getPosSlot hge
    rw [if_neg hsmall] at htree
    rw [if_pos (UInt32.not_lt.mp hsmall), hcoded.or_eq]
    by_cases hmodel : getPosSlot distance < endPosModelIndex
    · rw [if_pos hmodel] at htree ⊢
      have hlt : (getPosSlot distance).toNat < 14 := hmodel
      have hne : distance ≠ 0xFFFFFFFF := by
        rintro rfl
        exact absurd hlt (by decide)
      obtain ⟨loc', hwrites, hsame, hrep0⟩ :=
        modelSlot_writes coder noEopm dict loc _ hcoded hge hlt hne
      exact ⟨loc', htree.trans hwrites, hsame, hrep0⟩
    · rw [if_neg hmodel] at htree ⊢
      obtain ⟨loc', hwrites, hsame, hrep0⟩ := alignSlot_writes coder noEopm dict
        { loc with probs := .posSlot (getLenToPosState len).toNat, symbol := getPosSlot distance }
        _ hcoded (Nat.le_of_not_lt hmodel)
      exact ⟨loc', htree.trans hwrites,
        ⟨hsame.state, hsame.rep1, hsame.rep2, hsame.rep3, hsame.len⟩, hrep0⟩

end Distance

/-- What encoder and decoder know of the symbols before. -/
structure Agrees (encoder : LzmaEncoder) (loc : Local) : Prop where
  state : loc.state = encoder.state
  rep0 : loc.rep0 = encoder.rep0
  rep1 : loc.rep1 = encoder.rep1
  rep2 : loc.rep2 = encoder.rep2
  rep3 : loc.rep3 = encoder.rep3

/-- Encoder and decoder stop to compare at the same bit. -/
theorem offset_eq {offset : UInt32} (h : offset = 0 ∨ offset = 0x100) (matchByte symbol : UInt32) :
    offset &&& ~~~(matchByte ^^^ symbol) =
      if symbol.toNat.testBit 8 = false then offset &&& ~~~(matchByte &&& offset)
      else offset &&& (matchByte &&& offset) := by
  obtain rfl | rfl := h
  · simp
  · have hxor : (~~~(matchByte ^^^ symbol)).toNat.testBit 8 =
        !(xor (matchByte.toNat.testBit 8) (symbol.toNat.testBit 8)) := by
      show (~~~(matchByte ^^^ symbol)).toBitVec.getLsbD 8 =
        !(xor (matchByte.toBitVec.getLsbD 8) (symbol.toBitVec.getLsbD 8))
      simp
    rw [and_0x100 (~~~(matchByte ^^^ symbol)), hxor, UInt32.and_comm matchByte,
      and_0x100 matchByte]
    cases matchByte.toNat.testBit 8 <;> cases symbol.toNat.testBit 8 <;> decide

section Literal
variable (coder : LzmaDecoder) (noEopm : Bool) (dict : Dict)

/-- One turn of `literal_matched` shifts the next bit of the byte into the node. -/
theorem literalMatched_bit {symbol : UInt32} (h : symbol.toNat < 2 ^ 16) :
    decide ((symbol >>> 7) &&& 1 ≠ 0) = symbol.toNat.testBit 7 ∧
      (symbol <<< 1).toNat.testBit 8 = symbol.toNat.testBit 7 ∧
      (symbol <<< 1).toNat = 2 * symbol.toNat ∧
      (symbol <<< 1) >>> 8 = (symbol >>> 8) <<< 1 + bif symbol.toNat.testBit 7 then 1 else 0 := by
  have hlast : ((symbol >>> 7) &&& 1).toNat = (symbol.toNat.testBit 7).toNat := by
    rw [UInt32.toNat_and, UInt32.toNat_shiftRight, Nat.toNat_testBit]
    show symbol.toNat >>> 7 &&& 1 = _
    rw [Nat.and_one_is_mod, Nat.shiftRight_eq_div_pow]
  have hdouble : (symbol <<< 1).toNat = 2 * symbol.toNat := by
    rw [UInt32.toNat_shiftLeft, Nat.shiftLeft_eq]
    show symbol.toNat * 2 % 2 ^ 32 = _
    omega
  have hshift (r : UInt32) : (r >>> 8).toNat = r.toNat / 2 ^ 8 := by
    rw [UInt32.toNat_shiftRight, Nat.shiftRight_eq_div_pow]
    rfl
  refine ⟨?_, ?_, hdouble, ?_⟩
  · cases hbit : symbol.toNat.testBit 7 with
    | false =>
      rw [hbit] at hlast
      rw [UInt32.toNat_inj.mp (hlast.trans (show _ = (0 : UInt32).toNat from rfl))]
      rfl
    | true =>
      rw [hbit] at hlast
      rw [UInt32.toNat_inj.mp (hlast.trans (show _ = (1 : UInt32).toNat from rfl))]
      rfl
  · show (symbol <<< 1).toBitVec.getLsbD 8 = symbol.toBitVec.getLsbD 7
    simp
  · apply UInt32.toNat_inj.mp
    rw [toNat_shift (by rw [hshift]; omega), hshift, hshift, hdouble, Nat.toNat_testBit]
    omega

/-- The bits of a literal behind a match. -/
theorem literalMatched_writes {encoder : LzmaEncoder} {j k : ℕ} (loc : Local) (subcoder : ℕ)
    (offset matchByte symbol : UInt32) (rc : RangeEncoder Prob) (hk : k + j = 7)
    (hoffset : offset = 0 ∨ offset = 0x100) (hsymbol : symbol.toNat < 2 ^ (k + 9))
    (hagrees : Agrees encoder loc) :
    ∃ loc', Writes coder noEopm dict rc
      (LzmaEncoder.literalMatchedLoop subcoder (j + 1) rc offset matchByte symbol)
      (.label { loc with
        sequence := .literalMatched k
        probs := .literal subcoder
        symbol := symbol >>> 8
        offset
        len := matchByte <<< 1 })
      loc'.literalDone ∧ Agrees encoder loc' ∧
      loc'.symbol.toNat = symbol.toNat * 2 ^ (j + 1) / 256 := by
  have hsmall {k : ℕ} {symbol : UInt32} (hk : k ≤ 7) (h : symbol.toNat < 2 ^ (k + 9)) :
      symbol.toNat < 2 ^ 16 :=
    Nat.lt_of_lt_of_le h (Nat.pow_le_pow_right (by decide) (by omega))
  induction j generalizing k offset matchByte symbol rc with
  | zero =>
    obtain ⟨hbit, -, hdouble, hnode⟩ := literalMatched_bit (hsmall (by omega) hsymbol)
    have hshift : ((symbol <<< 1) >>> 8).toNat = 2 * symbol.toNat / 256 := by
      rw [UInt32.toNat_shiftRight, hdouble, Nat.shiftRight_eq_div_pow]
      rfl
    unfold LzmaEncoder.literalMatchedLoop
    dsimp only
    rw [hbit]
    refine ⟨_, Writes.bit_to rfl (if_neg (by omega)),
      ⟨hagrees.state, hagrees.rep0, hagrees.rep1, hagrees.rep2, hagrees.rep3⟩, ?_⟩
    show ((symbol >>> 8) <<< 1 + bif symbol.toNat.testBit 7 then 1 else 0).toNat = _
    rw [← hnode, hshift, Nat.zero_add, pow_one, Nat.mul_comm]
  | succ j ih =>
    obtain ⟨hbit, hbit', hdouble, hnode⟩ := literalMatched_bit (hsmall (by omega) hsymbol)
    have hnext := offset_eq hoffset (matchByte <<< 1) (symbol <<< 1)
    rw [hbit'] at hnext
    have hoffset' := offset_next (matchByte <<< 1) hoffset (symbol.toNat.testBit 7)
    rw [← hnext] at hoffset'
    obtain ⟨loc', hwrites, hagrees', hlast⟩ := ih _ (matchByte <<< 1) (symbol <<< 1)
      (rc.rcBit (.literal subcoder (offset + (matchByte <<< 1 &&& offset) + symbol >>> 8).toNat)
        (symbol.toNat.testBit 7)) (show k + 1 + j = 7 by omega) hoffset'
      (by rw [hdouble, Nat.add_right_comm, pow_succ]; omega)
    rw [hnode] at hwrites
    unfold LzmaEncoder.literalMatchedLoop
    dsimp only
    rw [hbit]
    refine ⟨loc', (Writes.bit_to rfl ?_).trans hwrites, hagrees', ?_⟩
    · rw [hnext]
      exact if_pos (by omega)
    · rw [hlast, hdouble, pow_succ 2 (j + 1), Nat.mul_comm 2, Nat.mul_assoc, Nat.mul_comm 2]

end Literal

end Lzma
