import Zim.Lzma.LzmaDecoder

/-! What the variables of the LZMA decoder are at each label, whatever the input is. -/
namespace Lzma
open Cxx

/-- A node of a bit tree behind `k` bits. -/
def InTree (symbol : UInt32) (k : ℕ) : Prop := 2 ^ k ≤ symbol.toNat ∧ symbol.toNat < 2 ^ (k + 1)

theorem toNat_shift {symbol : UInt32} (h : symbol.toNat < 2 ^ 31) (bit : Bool) :
    (symbol <<< 1 + bif bit then 1 else 0).toNat = 2 * symbol.toNat + bit.toNat := by
  have hshift : (symbol <<< 1).toNat = 2 * symbol.toNat := by
    rw [UInt32.toNat_shiftLeft, Nat.shiftLeft_eq]
    show symbol.toNat * 2 % 2 ^ 32 = _
    omega
  cases bit with
  | false =>
    rw [UInt32.toNat_add, hshift]
    show (2 * symbol.toNat + 0) % 2 ^ 32 = 2 * symbol.toNat + 0
    omega
  | true =>
    rw [UInt32.toNat_add, hshift]
    show (2 * symbol.toNat + 1) % 2 ^ 32 = 2 * symbol.toNat + 1
    omega

theorem InTree.shift {symbol : UInt32} {k : ℕ} (hk : k < 30) (bit : Bool) (h : InTree symbol k) :
    InTree (symbol <<< 1 + bif bit then 1 else 0) (k + 1) := by
  have hpow : 2 ^ (k + 1) ≤ 2 ^ 30 := Nat.pow_le_pow_right (by decide) hk
  have hbit := Bool.toNat_le bit
  obtain ⟨hle, hlt⟩ := h
  rw [pow_succ] at hlt hpow
  unfold InTree
  rw [toNat_shift (by omega), pow_succ, pow_succ]
  omega

/-- A distance that was checked, or one that was never set. -/
def Old (full : ℕ) (distance : UInt32) : Prop := distance = 0 ∨ distance.toNat < full

namespace Local
variable {loc : Local} {full : ℕ}

theorem shift_inTree {k : ℕ} (hk : k < 30) (bit : Bool) (h : InTree loc.symbol k) :
    InTree (loc.shift bit).symbol (k + 1) :=
  h.shift hk bit

theorem inTree_one : InTree 1 0 := by
  unfold InTree
  decide

/-- The labels of `len_decode`. -/
def LenAt (loc : Local) : LenSequence → Prop
  | .choice => loc.symbol = 1
  | .low k => k < 3 ∧ InTree loc.symbol k
  | .choice2 => loc.symbol = 1
  | .mid k => k < 3 ∧ InTree loc.symbol k
  | .high k => k < 8 ∧ InTree loc.symbol k

def LenInside (loc : Local) : Prop := 2 ≤ loc.len.toNat ∧ loc.len.toNat ≤ 273

/-- The invariant of the main loop, of which `full` bytes of the dictionary are written. -/
structure At (full : ℕ) (loc : Local) : Prop where
  rep1 : Old full loc.rep1
  rep2 : Old full loc.rep2
  rep3 : Old full loc.rep3
  label : match loc.sequence with
    | .normalize | .isMatch => Old full loc.rep0 ∧ (loc.state.isLiteralState = false → 0 < full)
    | .literal k => Old full loc.rep0 ∧ k < 8 ∧ InTree loc.symbol k ∧
      ∃ coder < 16, loc.probs = .literal coder
    | .literalMatched k => Old full loc.rep0 ∧ k < 8 ∧ InTree loc.symbol k ∧
      (loc.offset = 0 ∨ loc.offset = 0x100) ∧ ∃ coder < 16, loc.probs = .literal coder
    | .literalWrite => Old full loc.rep0
    | .isRep => Old full loc.rep0
    | .matchLen seq => loc.LenAt seq
    | .posSlot k => loc.LenInside ∧ k < 6 ∧ InTree loc.symbol k ∧
      ∃ lenState < 4, loc.probs = .posSlot lenState
    | .posModel => loc.LenInside ∧ 1 ≤ loc.limit.toNat ∧
      loc.limit.toNat + loc.offset.toNat ≤ 5 ∧ InTree loc.symbol loc.offset.toNat ∧
      ∃ base : ℤ, loc.probs = .posSpecial base ∧ -1 ≤ base ∧
        base + (2 ^ (loc.limit.toNat + loc.offset.toNat) : ℕ) ≤ 114
    | .direct => loc.LenInside ∧ 1 ≤ loc.limit.toNat ∧ loc.limit.toNat ≤ 26
    | .align k => loc.LenInside ∧ k < 4 ∧ InTree loc.symbol k
    | .eopm => True
    | .isRep0 | .isRep0Long | .isRep1 | .isRep2 => Old full loc.rep0 ∧ 0 < full
    | .shortrep => Old full loc.rep0 ∧ 0 < full
    | .repLen seq => Old full loc.rep0 ∧ 0 < full ∧ loc.LenAt seq
    | .copy => loc.rep0.toNat < full ∧ loc.len.toNat ≤ 273

end Local

theorem Old.lt {full : ℕ} {distance : UInt32} (h : Old full distance) (hfull : 0 < full) :
    distance.toNat < full := by
  obtain rfl | hlt := h
  · exact hfull
  · exact hlt

theorem Old.mono {full full' : ℕ} {distance : UInt32} (hle : full ≤ full') (h : Old full distance) :
    Old full' distance := by
  obtain rfl | hlt := h
  · exact .inl rfl
  · exact .inr (Nat.lt_of_lt_of_le hlt hle)

/-- The next label meets the invariant, with the assertions in front of it, or the loop is left with
an error or at the end. -/
def Next.Sound (full : ℕ) : Next → Prop
  | .label loc => loc.At full ∧ (Next.label loc).asserted = true
  | .out ret _ => ret ≠ .ok

/-- The index lies in its table, and whatever the bit is the code behind it is sound. -/
def Action.Sound (full : ℕ) : Action → Prop
  | .bit prob next => prob.inTable = true ∧ ∀ bit, (next bit).Sound full
  | .direct next => ∀ bit, (next bit).Sound full
  | .normalize ret => ret ≠ .ok
  | _ => True

theorem Next.Sound.asserted {full : ℕ} {next : Next} (h : next.Sound full) :
    next.asserted = true := by
  cases next with
  | label loc => exact h.2
  | out ret loc => rfl

theorem Action.Sound.inTable {full : ℕ} {action : Action} (h : action.Sound full) :
    action.inTable = true := by
  cases action with
  | bit prob next => exact h.1
  | direct next => rfl
  | normalize ret => rfl
  | put byte => rfl
  | copy => rfl
  | leave => rfl

theorem Action.Sound.asserted {full : ℕ} {action : Action} (h : action.Sound full) :
    action.asserted = true := by
  cases action with
  | bit prob next => exact Bool.and_eq_true_iff.mpr ⟨(h.2 false).asserted, (h.2 true).asserted⟩
  | direct next => exact Bool.and_eq_true_iff.mpr ⟨(h false).asserted, (h true).asserted⟩
  | normalize ret => rfl
  | put byte => rfl
  | copy => rfl
  | leave => rfl

namespace Local
variable {loc : Local} {full posState : ℕ} {dict : Dict}

theorem low_inTable {len : LenCoder} {k n : ℕ} (hpos : posState < 16) (hk : k < 3)
    (h : InTree loc.symbol k) (hn : n = loc.symbol.toNat) :
    Prob.inTable (.low len posState n) = true ∧ Prob.inTable (.mid len posState n) = true := by
  have hpow : 2 ^ (k + 1) ≤ 2 ^ 3 := Nat.pow_le_pow_right (by decide) hk
  have hlt : n < 8 := hn ▸ Nat.lt_of_lt_of_le h.2 hpow
  simp [Prob.inTable, hpos, hlt]

/-- Behind the last bit of a tree the length is one of those of the tree. -/
theorem symbol_sub {symbol : UInt32} {k : ℕ} (base : UInt32) (hbase : base.toNat = 2 ^ k)
    (h : InTree symbol k) : (symbol - base).toNat < 2 ^ k := by
  obtain ⟨hle, hlt⟩ := h
  rw [UInt32.toNat_sub_of_le _ _ (by rw [UInt32.le_iff_toNat_le, hbase]; exact hle), hbase]
  rw [pow_succ] at hlt
  omega

theorem lenDecode_sound {len : LenCoder} {seq : LenSequence → Sequence} {behind : Local → Next}
    (hpos : posState < 16) (hgoto : ∀ symbol s, { loc with symbol }.LenAt s →
      ({ loc with symbol }.goto (seq s)).Sound full)
    (hbehind : ∀ symbol len, { loc with symbol, len }.LenInside →
      (behind { loc with symbol, len }).Sound full) {s : LenSequence} (h : loc.LenAt s) :
    (loc.lenDecode len posState seq behind s).Sound full := by
  cases s with
  | choice =>
    refine ⟨rfl, fun bit => ?_⟩
    have hone : loc.symbol = 1 := h
    cases bit with
    | false => exact hgoto loc.symbol (.low 0) ⟨by decide, by rw [hone]; exact inTree_one⟩
    | true => exact hgoto loc.symbol .choice2 hone
  | choice2 =>
    refine ⟨rfl, fun bit => ?_⟩
    have hone : loc.symbol = 1 := h
    cases bit with
    | false => exact hgoto loc.symbol (.mid 0) ⟨by decide, by rw [hone]; exact inTree_one⟩
    | true => exact hgoto loc.symbol (.high 0) ⟨by decide, by rw [hone]; exact inTree_one⟩
  | low k =>
    obtain ⟨hk, htree⟩ := h
    refine ⟨(low_inTable hpos hk htree rfl).1, fun bit => ?_⟩
    have hnext := shift_inTree (by omega) bit htree
    dsimp only
    split_ifs with hlt
    · exact hgoto (loc.shift bit).symbol (.low (k + 1)) ⟨by omega, hnext⟩
    · obtain rfl : k = 2 := by omega
      have hsub := symbol_sub lenLowSymbols rfl hnext
      apply hbehind
      unfold LenInside
      have hmin : matchLenMin.toNat = 2 := rfl
      dsimp only
      rw [UInt32.toNat_add, hmin]
      omega
  | mid k =>
    obtain ⟨hk, htree⟩ := h
    refine ⟨(low_inTable hpos hk htree rfl).2, fun bit => ?_⟩
    have hnext := shift_inTree (by omega) bit htree
    dsimp only
    split_ifs with hlt
    · exact hgoto (loc.shift bit).symbol (.mid (k + 1)) ⟨by omega, hnext⟩
    · obtain rfl : k = 2 := by omega
      have hsub := symbol_sub lenMidSymbols rfl hnext
      apply hbehind
      unfold LenInside
      have hmin : matchLenMin.toNat = 2 := rfl
      have hlow : lenLowSymbols.toNat = 8 := rfl
      dsimp only
      rw [UInt32.toNat_add, UInt32.toNat_add, hmin, hlow]
      omega
  | high k =>
    obtain ⟨hk, htree⟩ := h
    have hpow : 2 ^ (k + 1) ≤ 2 ^ 8 := Nat.pow_le_pow_right (by decide) hk
    refine ⟨decide_eq_true (Nat.lt_of_lt_of_le htree.2 hpow), fun bit => ?_⟩
    have hnext := shift_inTree (by omega) bit htree
    dsimp only
    split_ifs with hlt
    · exact hgoto (loc.shift bit).symbol (.high (k + 1)) ⟨by omega, hnext⟩
    · obtain rfl : k = 7 := by omega
      have hsub := symbol_sub lenHighSymbols rfl hnext
      apply hbehind
      unfold LenInside
      have hmin : matchLenMin.toNat = 2 := rfl
      have hlow : lenLowSymbols.toNat = 8 := rfl
      have hmid : lenMidSymbols.toNat = 8 := rfl
      dsimp only
      rw [UInt32.toNat_add, UInt32.toNat_add, UInt32.toNat_add, hmin, hlow, hmid]
      omega

theorem asserted_of_lenInside (hlen : loc.LenInside) : (Next.label loc).asserted = true := by
  have hmin : matchLenMin ≤ loc.len := UInt32.le_iff_toNat_le.mpr hlen.1
  have hmax : loc.len ≤ matchLenMax := UInt32.le_iff_toNat_le.mpr hlen.2
  simp [Next.asserted, hmin, hmax]

/-- The checked distance is one of the dictionary. -/
theorem validate_sound (h1 : Old dict.full loc.rep1) (h2 : Old dict.full loc.rep2)
    (h3 : Old dict.full loc.rep3) (hlen : loc.LenInside) :
    (loc.validate dict).Sound dict.full := by
  unfold validate
  split_ifs with hvalid
  · exact ⟨⟨h1, h2, h3, of_decide_eq_true hvalid, hlen.2⟩, asserted_of_lenInside hlen⟩
  · exact Ret.noConfusion

/-- The slots whose distances are wholly encoded with probabilities. -/
theorem slot_model : ∀ s < 14, 4 ≤ s →
    let symbol := UInt32.ofNat s
    let limit := symbol >>> 1 - 1
    let rep0 := (2 + (symbol &&& 1)) <<< limit
    1 ≤ limit.toNat ∧ limit.toNat ≤ 5 ∧ s ≤ rep0.toNat ∧
      rep0.toNat + 2 ^ limit.toNat ≤ 115 + s := by decide

/-- The slots of which some bits are encoded directly. -/
theorem slot_direct : ∀ s < 64, 14 ≤ s →
    1 ≤ (UInt32.ofNat s >>> 1 - 1 - alignBits).toNat ∧
      (UInt32.ofNat s >>> 1 - 1 - alignBits).toNat ≤ 26 := by decide

theorem slotAsserted_slot : ∀ s < 64, slotAsserted (UInt32.ofNat s + posSlots) = true := by decide

/-- The assertions hold for every slot. -/
theorem slotAsserted_inTree {symbol : UInt32} (h : InTree symbol 6) :
    slotAsserted symbol = true := by
  have hslot := symbol_sub posSlots rfl h
  have hsymbol : UInt32.ofNat (symbol - posSlots).toNat + posSlots = symbol := by
    rw [UInt32.ofNat_toNat, UInt32.sub_add_cancel]
  rw [← hsymbol]
  exact slotAsserted_slot _ hslot

theorem slotDone_sound (h1 : Old dict.full loc.rep1) (h2 : Old dict.full loc.rep2)
    (h3 : Old dict.full loc.rep3) (hlen : loc.LenInside) (h : InTree loc.symbol 6) :
    (loc.slotDone dict).Sound dict.full := by
  have hslot := symbol_sub posSlots rfl h
  have hofNat : loc.symbol - posSlots = UInt32.ofNat (loc.symbol - posSlots).toNat :=
    UInt32.ofNat_toNat.symm
  have hstart : startPosModelIndex.toNat = 4 := rfl
  have hend : endPosModelIndex.toNat = 14 := rfl
  generalize (loc.symbol - posSlots).toNat = s at hslot hofNat
  have hs : (UInt32.ofNat s).toNat = s := by
    rw [UInt32.toNat_ofNat', Nat.mod_eq_of_lt]
    exact Nat.lt_trans hslot (by decide)
  unfold slotDone
  dsimp only
  rw [hofNat]
  simp only [UInt32.lt_iff_toNat_lt, hs, hstart, hend]
  split_ifs with hsmall hmodel
  · exact validate_sound h1 h2 h3 hlen
  · obtain ⟨hone, hfive, hle, htable⟩ := slot_model s hmodel (by omega)
    refine ⟨⟨h1, h2, h3, hlen, hone, ?_, inTree_one, _, rfl, ?_, ?_⟩, rfl⟩
    · exact hfive
    · omega
    · show ((2 + (UInt32.ofNat s &&& 1)) <<< (UInt32.ofNat s >>> 1 - 1)).toNat - (s : ℤ) - 1 +
        ((2 ^ ((UInt32.ofNat s >>> 1 - 1).toNat + 0) : ℕ) : ℤ) ≤ 114
      rw [Nat.add_zero]
      omega
  · obtain ⟨hone, hle⟩ := slot_direct s hslot (by omega)
    exact ⟨⟨h1, h2, h3, hlen, hone, hle⟩, rfl⟩

/-- One turn more of the loop over a reversed tree. -/
theorem posModel_sound {base : ℤ} (h1 : Old dict.full loc.rep1) (h2 : Old dict.full loc.rep2)
    (h3 : Old dict.full loc.rep3) (hlen : loc.LenInside) (hone : 1 ≤ loc.limit.toNat)
    (hle : loc.limit.toNat + loc.offset.toNat ≤ 5) (htree : InTree loc.symbol loc.offset.toNat)
    (hprobs : loc.probs = .posSpecial base) (hbase : -1 ≤ base)
    (htable : base + (2 ^ (loc.limit.toNat + loc.offset.toNat) : ℕ) ≤ 114) (sequence : Sequence)
    (rep0 : UInt32) (bit : Bool) :
    (if loc.limit = (1 : UInt32) then { loc with sequence, rep0 }.validate dict
      else { { loc with sequence, rep0 }.shift bit with
        offset := loc.offset + 1
        limit := loc.limit - 1 }.goto .posModel).Sound dict.full := by
  split_ifs with hlast
  · exact validate_sound h1 h2 h3 hlen
  · have hsub : (loc.limit - 1).toNat = loc.limit.toNat - 1 :=
      UInt32.toNat_sub_of_le _ _ (UInt32.le_iff_toNat_le.mpr hone)
    have hadd : (loc.offset + 1).toNat = loc.offset.toNat + 1 := by
      rw [UInt32.toNat_add]
      exact Nat.mod_eq_of_lt (by show loc.offset.toNat + 1 < 2 ^ 32; omega)
    have htwo : 2 ≤ loc.limit.toNat := by
      by_contra hnot
      apply hlast
      apply UInt32.toNat_inj.mp
      show loc.limit.toNat = 1
      omega
    have hsum : loc.limit.toNat - 1 + (loc.offset.toNat + 1) =
        loc.limit.toNat + loc.offset.toNat := by omega
    have hnext : InTree (loc.shift bit).symbol (loc.offset.toNat + 1) :=
      shift_inTree (by omega) bit htree
    refine ⟨⟨h1, h2, h3, hlen, ?_, ?_, ?_, base, hprobs, hbase, ?_⟩, rfl⟩
    · dsimp only
      omega
    · dsimp only
      omega
    · dsimp only
      rw [hadd]
      exact hnext
    · dsimp only
      rw [hsub, hadd, hsum]
      exact htable

theorem alignDone_sound {noEopm : Bool} (h1 : Old dict.full loc.rep1) (h2 : Old dict.full loc.rep2)
    (h3 : Old dict.full loc.rep3) (hlen : loc.LenInside) :
    (loc.alignDone noEopm dict).Sound dict.full := by
  unfold alignDone
  split_ifs
  · exact Ret.noConfusion
  · exact ⟨⟨h1, h2, h3, trivial⟩, rfl⟩
  · exact validate_sound h1 h2 h3 hlen

theorem longRep_sound (h0 : Old full loc.rep0) (h1 : Old full loc.rep1) (h2 : Old full loc.rep2)
    (h3 : Old full loc.rep3) (hfull : 0 < full) : loc.longRep.Sound full :=
  ⟨⟨h1, h2, h3, h0, hfull, rfl⟩, rfl⟩

theorem literalDone_sound (h0 : Old full loc.rep0) (h1 : Old full loc.rep1)
    (h2 : Old full loc.rep2) (h3 : Old full loc.rep3) : loc.literalDone.Sound full :=
  ⟨⟨h1, h2, h3, h0⟩, rfl⟩

end Local

/-- The masks of valid options. -/
structure LzmaDecoder.Configured (coder : LzmaDecoder) : Prop where
  posMask : coder.posMask.toNat < 16
  literal : ∃ lc lp, lc + lp ≤ 4 ∧ coder.literalContextBits.toNat = lc ∧
    coder.literalPosMask.toNat + 1 = 2 ^ lp

theorem literalSubcoder_lt {lc lp lpMask pos : ℕ} {prevByte : UInt8} (hle : lc + lp ≤ 4)
    (hmask : lpMask + 1 = 2 ^ lp) : literalSubcoder lc lpMask pos prevByte < 16 := by
  have hand : pos &&& lpMask ≤ 2 ^ lp - 1 := by
    have hright : pos &&& lpMask ≤ lpMask := Nat.and_le_right
    omega
  have hbyte : prevByte.toNat >>> (8 - lc) < 2 ^ lc := by
    have hlt := prevByte.toNat_lt
    rw [Nat.shiftRight_eq_div_pow, Nat.div_lt_iff_lt_mul (Nat.two_pow_pos _), ← pow_add,
      Nat.add_sub_cancel' (by omega)]
    exact hlt
  have hpow : 2 ^ lp * 2 ^ lc ≤ 16 := by
    rw [← pow_add]
    exact Nat.pow_le_pow_right (n := 2) (by decide) (show lp + lc ≤ 4 by omega)
  have hmul : (pos &&& lpMask) * 2 ^ lc ≤ (2 ^ lp - 1) * 2 ^ lc := Nat.mul_le_mul_right _ hand
  have hone : 0 < 2 ^ lp := Nat.two_pow_pos lp
  rw [literalSubcoder, Nat.shiftLeft_eq]
  rw [Nat.sub_mul, Nat.one_mul] at hmul
  have hle : 2 ^ lc ≤ 2 ^ lp * 2 ^ lc := Nat.le_mul_of_pos_left _ hone
  omega

theorem literal_inTable {c : ℕ} {index : UInt32} (hc : c < 16) (hindex : index.toNat < 0x300) :
    ((ProbBase.literal c).index index).inTable = true := by
  simp [ProbBase.index, Prob.inTable, hc, hindex]

theorem getLenToPosState_lt {len : UInt32} (h : 2 ≤ len.toNat) :
    (getLenToPosState len).toNat < 4 := by
  have hsum : (lenToPosStates + matchLenMin).toNat = 6 := rfl
  have hsub : (len - matchLenMin).toNat = len.toNat - 2 :=
    UInt32.toNat_sub_of_le _ _ (UInt32.le_iff_toNat_le.mpr h)
  unfold getLenToPosState
  split_ifs with hlt
  · rw [UInt32.lt_iff_toNat_lt, hsum] at hlt
    rw [hsub]
    omega
  · decide

theorem and_0x100 (x : UInt32) : 0x100 &&& x = bif x.toNat.testBit 8 then 0x100 else 0 := by
  have hand : (x &&& 0x100).toNat = (x.toNat.testBit 8).toNat * 2 ^ 8 := by
    rw [UInt32.toNat_and]
    exact Nat.and_two_pow x.toNat 8
  rw [UInt32.and_comm]
  cases hbit : x.toNat.testBit 8 with
  | false => exact UInt32.toNat_inj.mp (by rw [hand, hbit]; rfl)
  | true => exact UInt32.toNat_inj.mp (by rw [hand, hbit]; rfl)

theorem matchBit_eq (len : UInt32) {offset : UInt32} (h : offset = 0 ∨ offset = 0x100) :
    len &&& offset = 0 ∨ len &&& offset = 0x100 := by
  obtain rfl | rfl := h
  · exact .inl UInt32.and_zero
  · rw [UInt32.and_comm, and_0x100]
    cases len.toNat.testBit 8 with
    | false => exact .inl rfl
    | true => exact .inr rfl

/-- Only two values of `offset` occur, whatever the bits are. -/
theorem offset_next (len : UInt32) {offset : UInt32} (h : offset = 0 ∨ offset = 0x100)
    (bit : Bool) :
    (if bit = false then offset &&& ~~~(len &&& offset) else offset &&& (len &&& offset)) = 0 ∨
      (if bit = false then offset &&& ~~~(len &&& offset) else offset &&& (len &&& offset)) =
        0x100 := by
  have hbit := matchBit_eq len h
  generalize len &&& offset = matchBit at hbit
  obtain rfl | rfl := h <;> obtain rfl | rfl := hbit <;> cases bit <;> decide

/-- The three parts of a literal coder have 256 entries each. -/
theorem subcoderIndex_lt (len : UInt32) {offset symbol : UInt32}
    (hoffset : offset = 0 ∨ offset = 0x100) (hsymbol : symbol.toNat < 0x100) :
    (offset + (len &&& offset) + symbol).toNat < 0x300 := by
  have hsum : (offset + (len &&& offset)).toNat ≤ 0x200 := by
    obtain hbit | hbit := matchBit_eq len hoffset <;> obtain rfl | rfl := hoffset <;>
      rw [hbit] <;> decide
  rw [UInt32.toNat_add]
  omega

namespace LzmaDecoder
variable {coder : LzmaDecoder} {dict : Dict} {noEopm : Bool}

theorem isMatch_sound {posState : ℕ} (hconf : coder.Configured) (hpos : posState < 16)
    (h1 : Old dict.full coder.loc.rep1) (h2 : Old dict.full coder.loc.rep2)
    (h3 : Old dict.full coder.loc.rep3) (h0 : Old dict.full coder.loc.rep0) :
    (if noEopm = true ∧ dict.pos = dict.limit then Action.leave
      else .bit (.isMatch coder.loc.state posState) fun bit =>
        if bit = false then
          let probs := .literal (literalSubcoder coder.literalContextBits.toNat
            coder.literalPosMask.toNat dict.pos (dict.dictGet 0))
          let loc := { coder.loc with probs, symbol := 1 }
          if loc.state.isLiteralState then loc.goto (.literal 0)
          else
            { loc with
              len := (dict.dictGet loc.rep0).toUInt32 <<< 1
              offset := 0x100 }.goto (.literalMatched 0)
        else coder.loc.goto .isRep).Sound dict.full := by
  obtain ⟨lc, lp, hle, hlc, hlp⟩ := hconf.literal
  have hsub : literalSubcoder coder.literalContextBits.toNat coder.literalPosMask.toNat dict.pos
      (dict.dictGet 0) < 16 := by
    rw [hlc]
    exact literalSubcoder_lt hle hlp
  split_ifs with hend
  · trivial
  · refine ⟨decide_eq_true hpos, fun bit => ?_⟩
    dsimp only
    split_ifs with hfalse hlit
    · exact ⟨⟨h1, h2, h3, h0, by decide, Local.inTree_one, _, hsub, rfl⟩, rfl⟩
    · exact ⟨⟨h1, h2, h3, h0, by decide, Local.inTree_one, .inr rfl, _, hsub, rfl⟩, rfl⟩
    · exact ⟨⟨h1, h2, h3, h0⟩, rfl⟩

/-- The code at every label keeps the invariant, with each bit that it may get. -/
theorem action_sound (noEopm : Bool) (hconf : coder.Configured) (h : coder.loc.At dict.full) :
    (coder.action noEopm dict).Sound dict.full := by
  have hposState : dict.pos &&& coder.posMask.toNat < 16 :=
    Nat.lt_of_le_of_lt Nat.and_le_right hconf.posMask
  obtain ⟨h1, h2, h3, hlabel⟩ := h
  unfold action
  dsimp only
  generalize dict.pos &&& coder.posMask.toNat = posState at hposState
  cases hseq : coder.loc.sequence with
  | normalize =>
    rw [hseq] at hlabel
    exact isMatch_sound hconf hposState h1 h2 h3 hlabel.1
  | isMatch =>
    rw [hseq] at hlabel
    exact isMatch_sound hconf hposState h1 h2 h3 hlabel.1
  | literal k =>
    rw [hseq] at hlabel
    obtain ⟨h0, hk, htree, c, hc, hprobs⟩ := hlabel
    have hpow : 2 ^ (k + 1) ≤ 2 ^ 8 := Nat.pow_le_pow_right (by decide) hk
    have hindex : coder.loc.symbol.toNat < 0x300 :=
      Nat.lt_trans (Nat.lt_of_lt_of_le htree.2 hpow) (by decide)
    rw [hprobs]
    refine ⟨literal_inTable hc hindex, fun bit => ?_⟩
    dsimp only
    split_ifs with hlt
    · exact ⟨⟨h1, h2, h3, h0, by omega, Local.shift_inTree (by omega) bit htree, c, hc, hprobs⟩,
        rfl⟩
    · exact Local.literalDone_sound h0 h1 h2 h3
  | literalMatched k =>
    rw [hseq] at hlabel
    obtain ⟨h0, hk, htree, hoffset, c, hc, hprobs⟩ := hlabel
    have hpow : 2 ^ (k + 1) ≤ 2 ^ 8 := Nat.pow_le_pow_right (by decide) hk
    have hindex := subcoderIndex_lt coder.loc.len hoffset (Nat.lt_of_lt_of_le htree.2 hpow)
    have hnext := offset_next coder.loc.len hoffset
    rw [hprobs]
    refine ⟨literal_inTable hc hindex, fun bit => ?_⟩
    by_cases hlt : k < 7
    · simp only [if_pos hlt]
      exact ⟨⟨h1, h2, h3, h0, by omega, Local.shift_inTree (by omega) bit htree, hnext bit, c, hc,
        hprobs⟩, rfl⟩
    · simp only [if_neg hlt]
      exact Local.literalDone_sound h0 h1 h2 h3
  | literalWrite => trivial
  | isRep =>
    rw [hseq] at hlabel
    refine ⟨rfl, fun bit => ?_⟩
    dsimp only
    split_ifs with hfalse hvalid
    · exact ⟨⟨hlabel, h1, h2, rfl⟩, rfl⟩
    · exact ⟨⟨h1, h2, h3, hlabel, of_decide_eq_true hvalid⟩, rfl⟩
    · exact Ret.noConfusion
  | matchLen seq =>
    rw [hseq] at hlabel
    apply Local.lenDecode_sound hposState _ _ hlabel
    · exact fun symbol s hat => ⟨⟨h1, h2, h3, hat⟩, rfl⟩
    · exact fun symbol len hlen => ⟨⟨h1, h2, h3, hlen, by decide, Local.inTree_one, _,
        getLenToPosState_lt hlen.1, rfl⟩, rfl⟩
  | posSlot k =>
    rw [hseq] at hlabel
    obtain ⟨hlen, hk, htree, l, hl, hprobs⟩ := hlabel
    have hpow : 2 ^ (k + 1) ≤ 2 ^ 6 := Nat.pow_le_pow_right (by decide) hk
    have hindex : coder.loc.symbol.toNat < 64 := Nat.lt_of_lt_of_le htree.2 hpow
    have hnext (bit : Bool) := Local.shift_inTree (by omega) bit htree
    rw [hprobs]
    refine ⟨by simp [ProbBase.index, Prob.inTable, hl, hindex], fun bit => ?_⟩
    dsimp only
    split_ifs with hlt
    · exact ⟨⟨h1, h2, h3, hlen, by omega, hnext bit, l, hl, hprobs⟩, rfl⟩
    · obtain rfl : k = 5 := by omega
      exact Local.slotDone_sound h1 h2 h3 hlen (hnext bit)
  | posModel =>
    rw [hseq] at hlabel
    obtain ⟨hlen, hone, hle, htree, base, hprobs, hbase, htable⟩ := hlabel
    have hpow : 2 ^ (coder.loc.offset.toNat + 1) ≤
        2 ^ (coder.loc.limit.toNat + coder.loc.offset.toNat) :=
      Nat.pow_le_pow_right (by decide) (by omega)
    have hindex : (coder.loc.probs.index coder.loc.symbol).inTable = true := by
      have hlt := htree.2
      have hpos : 0 < 2 ^ coder.loc.offset.toNat := Nat.two_pow_pos _
      rw [hprobs]
      exact decide_eq_true (by omega)
    refine ⟨hindex, fun bit => ?_⟩
    exact Local.posModel_sound h1 h2 h3 hlen hone hle htree hprobs hbase htable _ _ bit
  | direct =>
    rw [hseq] at hlabel
    obtain ⟨hlen, hone, hle⟩ := hlabel
    have hsub : (coder.loc.limit - 1).toNat = coder.loc.limit.toNat - 1 :=
      UInt32.toNat_sub_of_le _ _ (UInt32.le_iff_toNat_le.mpr hone)
    intro bit
    dsimp only
    split_ifs with hlt
    · rw [UInt32.lt_iff_toNat_lt, hsub] at hlt
      exact ⟨⟨h1, h2, h3, hlen, by dsimp only; omega, by dsimp only; omega⟩, rfl⟩
    · exact ⟨⟨h1, h2, h3, hlen, by decide, Local.inTree_one⟩, rfl⟩
  | align k =>
    rw [hseq] at hlabel
    obtain ⟨hlen, hk, htree⟩ := hlabel
    have hpow : 2 ^ (k + 1) ≤ 2 ^ 4 := Nat.pow_le_pow_right (by decide) hk
    refine ⟨decide_eq_true (Nat.lt_of_lt_of_le htree.2 hpow), fun bit => ?_⟩
    dsimp only
    split_ifs with hlt
    · exact ⟨⟨h1, h2, h3, hlen, by omega, Local.shift_inTree (by omega) bit htree⟩, rfl⟩
    · exact Local.alignDone_sound h1 h2 h3 hlen
  | eopm => exact Ret.noConfusion
  | isRep0 =>
    rw [hseq] at hlabel
    refine ⟨rfl, fun bit => ?_⟩
    cases bit with
    | false => exact ⟨⟨h1, h2, h3, hlabel⟩, rfl⟩
    | true => exact ⟨⟨h1, h2, h3, hlabel⟩, rfl⟩
  | shortrep => trivial
  | isRep0Long =>
    rw [hseq] at hlabel
    refine ⟨decide_eq_true hposState, fun bit => ?_⟩
    cases bit with
    | false => exact ⟨⟨h1, h2, h3, hlabel⟩, rfl⟩
    | true => exact Local.longRep_sound hlabel.1 h1 h2 h3 hlabel.2
  | isRep1 =>
    rw [hseq] at hlabel
    refine ⟨rfl, fun bit => ?_⟩
    cases bit with
    | false => exact ⟨⟨hlabel.1, h2, h3, h1, hlabel.2, rfl⟩, rfl⟩
    | true => exact ⟨⟨h1, h2, h3, hlabel⟩, rfl⟩
  | isRep2 =>
    rw [hseq] at hlabel
    refine ⟨rfl, fun bit => ?_⟩
    cases bit with
    | false => exact ⟨⟨hlabel.1, h1, h3, h2, hlabel.2, rfl⟩, rfl⟩
    | true => exact ⟨⟨hlabel.1, h1, h2, h3, hlabel.2, rfl⟩, rfl⟩
  | repLen seq =>
    rw [hseq] at hlabel
    obtain ⟨h0, hfull, hat⟩ := hlabel
    apply Local.lenDecode_sound hposState _ _ hat
    · exact fun symbol s hat => ⟨⟨h1, h2, h3, h0, hfull, hat⟩, rfl⟩
    · exact fun symbol len hlen =>
        ⟨⟨h1, h2, h3, h0.lt hfull, hlen.2⟩, Local.asserted_of_lenInside hlen⟩
  | copy => trivial

end LzmaDecoder
end Lzma
