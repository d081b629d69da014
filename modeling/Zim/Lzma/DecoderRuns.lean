import Zim.Lzma.DecoderLabels
import Zim.Lzma.RangeDecoding

/-! Whatever its input is, the LZMA decoder stays inside its arrays, takes from the dictionary only
what was decoded before, and comes to an end. -/
namespace Lzma
open Cxx Lz77

namespace RangeDecoder
variable {rc rc' : RangeDecoder} {input input' : Bytes}

/-- What is left to a range decoder: every macro takes something of it. -/
def weight (rc : RangeDecoder) (input : Bytes) : ℕ := input.length * 2 ^ 32 + rc.range.toNat

theorem rcNormalize_weight (hwide : Wide rc.range)
    (h : rc.rcNormalize input = some (rc', input')) :
    2 ^ 24 ≤ rc'.range.toNat ∧ rc'.weight input' ≤ rc.weight input := by
  unfold rcNormalize at h
  unfold weight
  split_ifs at h with hlt
  · cases input with
    | nil => cases h
    | cons b input =>
      obtain ⟨rfl, rfl⟩ := h
      have hge := normalized_ge hwide
      have hrange := (normalized rc.range).toNat_lt
      unfold normalized at hge hrange
      rw [if_pos hlt] at hge hrange
      refine ⟨hge, ?_⟩
      rw [List.length_cons, Nat.add_mul]
      dsimp only
      omega
  · obtain ⟨rfl, rfl⟩ := h
    rw [lt_rcTopValue] at hlt
    exact ⟨by omega, le_rfl⟩

theorem length_le_of_weight (h : rc'.weight input' ≤ rc.weight input) :
    input'.length ≤ input.length := by
  have hlt := rc.range.toNat_lt
  unfold weight at h
  omega

theorem rcBit_weight {prob updated : Probability} {bit : Bool} (hwide : Wide rc.range)
    (hprob : Balanced prob) (h : rc.rcBit prob input = some (bit, rc', updated, input')) :
    Wide rc'.range ∧ Balanced updated ∧ rc'.weight input' < rc.weight input := by
  unfold rcBit at h
  obtain ⟨⟨rc₁, input₁⟩, hnormalize, h⟩ := Option.map_eq_some_iff.mp h
  obtain ⟨hrange, hweight⟩ := rcNormalize_weight hwide hnormalize
  obtain ⟨hlow, hhigh⟩ := rcBound_wide hrange hprob
  dsimp only at h
  unfold Wide weight at *
  split_ifs at h
  · obtain ⟨rfl, rfl, rfl, rfl⟩ := h
    refine ⟨hlow, balanced_rcUpdate0 hprob, ?_⟩
    dsimp only
    omega
  · obtain ⟨rfl, rfl, rfl, rfl⟩ := h
    have hsub : (rc₁.range - rcBound rc₁.range prob).toNat =
        rc₁.range.toNat - (rcBound rc₁.range prob).toNat := by
      apply UInt32.toNat_sub_of_le
      rw [UInt32.le_iff_toNat_le]
      omega
    refine ⟨?_, balanced_rcUpdate1 hprob, ?_⟩
    · dsimp only
      omega
    · dsimp only
      omega

theorem rcDirect_weight {bit : Bool} (hwide : Wide rc.range)
    (h : rc.rcDirect input = some (bit, rc', input')) :
    Wide rc'.range ∧ rc'.weight input' < rc.weight input := by
  unfold rcDirect at h
  obtain ⟨⟨rc₁, input₁⟩, hnormalize, h⟩ := Option.map_eq_some_iff.mp h
  obtain ⟨hrange, hweight⟩ := rcNormalize_weight hwide hnormalize
  obtain ⟨-, rfl, rfl⟩ := h
  have hhalf := shiftRight_one_toNat rc₁.range
  unfold Wide weight at *
  dsimp only
  omega

end RangeDecoder

/-- `dict'` is `dict` with some bytes more behind the history `h`. -/
structure Dict.Grows (dict : Dict) (h : Bytes) (dict' : Dict) (xs : Bytes) : Prop where
  holds : dict'.Holds (h ++ xs)
  pos : dict'.pos = dict.pos + xs.length
  limit : dict'.limit = dict.limit
  size : dict'.size = dict.size
  needReset : dict'.needReset = dict.needReset

theorem Dict.Grows.refl {dict : Dict} {h : Bytes} (hh : dict.Holds h) : dict.Grows h dict [] :=
  ⟨by rwa [List.append_nil], rfl, rfl, rfl, rfl⟩

theorem Dict.Grows.trans {dict dict' dict'' : Dict} {h xs ys : Bytes} (hg : dict.Grows h dict' xs)
    (hg' : dict'.Grows (h ++ xs) dict'' ys) : dict.Grows h dict'' (xs ++ ys) := by
  refine ⟨by rw [← List.append_assoc]; exact hg'.holds, ?_, hg'.limit.trans hg.limit,
    hg'.size.trans hg.size, hg'.needReset.trans hg.needReset⟩
  rw [hg'.pos, hg.pos, List.length_append, Nat.add_assoc]

theorem Dict.Grows.full_le {dict dict' : Dict} {h xs : Bytes} (hh : dict.Holds h)
    (hg : dict.Grows h dict' xs) : dict.full ≤ dict'.full := by
  rw [hh.full_eq, hg.holds.full_eq, hg.size, List.length_append]
  omega

theorem Dict.Grows.full_pos {dict dict' : Dict} {h xs : Bytes} (hg : dict.Grows h dict' xs)
    (hne : h ++ xs ≠ []) : 0 < dict'.full := by
  rw [hg.holds.full_eq]
  exact Nat.lt_min.mpr ⟨List.length_pos_of_ne_nil hne, hg.holds.size_pos⟩

/-- A distance that goes back beyond the position goes around a dictionary that is full. -/
theorem Dict.Holds.before_or_full {dict : Dict} {h : Bytes} (hh : dict.Holds h)
    {distance : UInt32} (hvalid : dict.dictIsDistanceValid distance = true) :
    distance.toNat < dict.pos ∨ dict.full = dict.size := by
  obtain hlt | hge := Nat.lt_or_ge distance.toNat dict.pos
  · exact .inl hlt
  · have hle := hh.keeps.full (hh.valid_iff.mp hvalid).1 hge
    rw [hh.size_eq] at hle
    exact .inr (by rw [hh.full_eq, Nat.min_eq_right hle])

/-- The invariant of the decoder. -/
structure LzmaDecoder.Inv (coder : LzmaDecoder) (full : ℕ) : Prop where
  configured : coder.Configured
  label : coder.loc.At full
  wide : Wide coder.rc.range
  balanced : ∀ i, Balanced (coder.probabilities i)

namespace LzmaDecoder
variable {coder : LzmaDecoder} {dict : Dict} {noEopm : Bool} {h : Bytes} {sequence : Sequence}
  {input : Bytes}

/-- The configuration and the local variables are all that the invariant says of a decoder, but for
its range decoder and its probabilities. -/
theorem Inv.move {full full' : ℕ} {rc : RangeDecoder} {loc : Local} (hinv : coder.Inv full)
    (hwide : Wide rc.range) (hloc : loc.At full') : { coder with rc, loc }.Inv full' :=
  ⟨⟨hinv.configured.posMask, hinv.configured.literal⟩, hloc, hwide, hinv.balanced⟩

/-- In the first turn of the longest loop over a reversed tree the offset is 0. -/
theorem posModel_defined {loc : Local} {base : ℤ} (hone : 1 ≤ loc.limit.toNat)
    (hle : loc.limit.toNat + loc.offset.toNat ≤ 5) (htree : InTree loc.symbol loc.offset.toNat)
    (hprobs : loc.probs = .posSpecial base) (hbase : -1 ≤ base) :
    (loc.probs.inFront loc.symbol && 1 ≤ loc.limit && loc.limit ≤ 5 &&
      (loc.limit ≠ 5 || loc.offset = 0)) = true := by
  have hpos : 0 < 2 ^ loc.offset.toNat := Nat.two_pow_pos _
  have hsymbol := htree.1
  have hfront : 0 ≤ base + (loc.symbol.toNat : ℤ) := by omega
  have hfive : loc.limit ≤ 5 := UInt32.le_iff_toNat_le.mpr (by
    show loc.limit.toNat ≤ 5
    omega)
  have hge : (1 : UInt32) ≤ loc.limit := UInt32.le_iff_toNat_le.mpr hone
  have hoffset (hlimit : loc.limit = 5) : loc.offset = 0 := by
    have hnat : loc.limit.toNat = 5 := congrArg UInt32.toNat hlimit
    apply UInt32.toNat_inj.mp
    show loc.offset.toNat = 0
    omega
  have hfirst : (decide (loc.limit ≠ 5) || decide (loc.offset = 0)) = true := by
    rw [Bool.or_eq_true_iff, decide_eq_true_iff, decide_eq_true_iff]
    exact or_iff_not_imp_left.mpr fun hnot => hoffset (not_not.mp hnot)
  rw [hprobs, hfirst]
  simp [ProbBase.inFront, hfront, hfive, hge]

/-- The code at a label is defined. -/
theorem Inv.defined (hinv : coder.Inv dict.full) (hh : dict.Holds h) :
    coder.defined noEopm dict = true := by
  have hsound := action_sound noEopm hinv.configured hinv.label
  obtain ⟨-, -, -, hlabel⟩ := hinv.label
  have hlimit : dict.limit ≤ dict.buf.length := by
    rw [hh.size_eq]
    exact hh.limit_le
  unfold LzmaDecoder.defined
  dsimp only
  rw [hsound.inTable, hsound.asserted, decide_eq_true hh.pos_le, decide_eq_true hlimit,
    Bool.and_self, Bool.and_self, Bool.and_self, Bool.true_and]
  have hstart (h0 : Old dict.full coder.loc.rep0)
      (hlit : coder.loc.state.isLiteralState = false → 0 < dict.full) :
      (coder.loc.state.isLiteralState || dict.dictIsDistanceValid coder.loc.rep0) = true := by
    cases hstate : coder.loc.state.isLiteralState with
    | true => rfl
    | false => exact decide_eq_true (h0.lt (hlit hstate))
  cases hseq : coder.loc.sequence with
  | normalize =>
    rw [hseq] at hlabel
    exact hstart hlabel.1 hlabel.2
  | isMatch =>
    rw [hseq] at hlabel
    exact hstart hlabel.1 hlabel.2
  | posSlot k =>
    rw [hseq] at hlabel
    obtain ⟨-, hk, htree, -⟩ := hlabel
    obtain hlt | rfl : k < 5 ∨ k = 5 := by omega
    · simp [hlt]
    · have hasserted (bit : Bool) : Local.slotAsserted (coder.loc.shift bit).symbol = true :=
        Local.slotAsserted_inTree (Local.shift_inTree (by decide) bit htree)
      simp [hasserted]
  | posModel =>
    rw [hseq] at hlabel
    obtain ⟨-, hone, hle, htree, base, hprobs, hbase, -⟩ := hlabel
    exact posModel_defined hone hle htree hprobs hbase
  | direct =>
    rw [hseq] at hlabel
    have hge : (1 : UInt32) ≤ coder.loc.limit := UInt32.le_iff_toNat_le.mpr hlabel.2.1
    have hle : coder.loc.limit ≤ (26 : UInt32) := UInt32.le_iff_toNat_le.mpr hlabel.2.2
    simp [hge, hle]
  | shortrep =>
    rw [hseq] at hlabel
    exact decide_eq_true (hlabel.1.lt hlabel.2)
  | copy =>
    rw [hseq] at hlabel
    have hvalid : dict.dictIsDistanceValid coder.loc.rep0 = true := decide_eq_true hlabel.1
    have hlen : coder.loc.len ≤ matchLenMax := UInt32.le_iff_toNat_le.mpr hlabel.2
    simp [hvalid, hlen, hh.before_or_full hvalid]
  | literal k => rfl
  | literalMatched k => rfl
  | literalWrite => rfl
  | isRep => rfl
  | matchLen seq => rfl
  | align k => rfl
  | eopm => rfl
  | isRep0 => rfl
  | isRep0Long => rfl
  | isRep1 => rfl
  | isRep2 => rfl
  | repLen seq => rfl

/-- The labels at which the dictionary is written. -/
def writes : Sequence → ℕ
  | .literalWrite | .shortrep | .copy => 1
  | _ => 0

/-- What is left to the main loop. -/
def weight (coder : LzmaDecoder) (input : Bytes) : ℕ :=
  2 * coder.rc.weight input + writes coder.loc.sequence

theorem writes_le (sequence : Sequence) : writes sequence ≤ 1 := by
  unfold writes
  split <;> decide

/-- The labels of the actions that are not queries. -/
def Action.LabelOf (sequence : Sequence) : Action → Prop
  | .put _ => sequence = .literalWrite ∨ sequence = .shortrep
  | .copy => sequence = .copy
  | .leave => sequence = .normalize ∨ sequence = .isMatch
  | _ => True

theorem lenDecode_label {loc : Local} {len : LenCoder} {posState : ℕ}
    {seq : LenSequence → Sequence} {behind : Local → Next} (s : LenSequence) :
    Action.LabelOf sequence (loc.lenDecode len posState seq behind s) := by
  cases s <;> trivial

theorem action_label (coder : LzmaDecoder) (noEopm : Bool) (dict : Dict) :
    Action.LabelOf coder.loc.sequence (coder.action noEopm dict) := by
  unfold action
  dsimp only
  cases coder.loc.sequence with
  | normalize =>
    by_cases hend : noEopm = true ∧ dict.pos = dict.limit
    · rw [if_pos hend]
      exact .inl rfl
    · rw [if_neg hend]
      trivial
  | isMatch =>
    by_cases hend : noEopm = true ∧ dict.pos = dict.limit
    · rw [if_pos hend]
      exact .inr rfl
    · rw [if_neg hend]
      trivial
  | literalWrite => exact .inl rfl
  | shortrep => exact .inr rfl
  | copy => rfl
  | matchLen seq => exact lenDecode_label seq
  | repLen seq => exact lenDecode_label seq
  | _ => trivial

/-- What holds behind a step of the main loop. -/
def StepSound (coder : LzmaDecoder) (dict : Dict) (h input : Bytes) : Progress → Prop
  | .more coder' dict' input' => ∃ xs, dict.Grows h dict' xs ∧ coder'.Inv dict'.full ∧
    coder'.weight input' < coder.weight input
  | .out ret coder' dict' input' => ∃ xs, dict.Grows h dict' xs ∧
    input'.length ≤ input.length ∧ (ret = .ok → coder'.Inv dict'.full)

theorem follow_sound {coder' : LzmaDecoder} {input' : Bytes} {next : Next}
    (hh : dict.Holds h) (hconf : coder'.Configured) (hwide : Wide coder'.rc.range)
    (hbalanced : ∀ i, Balanced (coder'.probabilities i)) (hnext : next.Sound dict.full)
    (hweight : coder'.rc.weight input' < coder.rc.weight input) :
    StepSound coder dict h input (coder'.follow sequence dict input' next) := by
  cases next with
  | label loc =>
    refine ⟨[], .refl hh, ⟨⟨hconf.posMask, hconf.literal⟩, hnext.1, hwide, hbalanced⟩, ?_⟩
    have hwrites := writes_le loc.sequence
    unfold weight
    dsimp only
    omega
  | out ret loc =>
    exact ⟨[], .refl hh, RangeDecoder.length_le_of_weight hweight.le, fun hok => absurd hok hnext⟩

theorem jump_inv {full full' : ℕ} (hinv : coder.Inv full) (hle : full ≤ full') (hpos : 0 < full')
    (h0 : Old full' coder.loc.rep0) : (coder.jump .isMatch).Inv full' :=
  hinv.move hinv.wide ⟨hinv.label.rep1.mono hle, hinv.label.rep2.mono hle,
    hinv.label.rep3.mono hle, h0, fun _ => hpos⟩

theorem jump_weight : (coder.jump .isMatch).weight input = 2 * coder.rc.weight input := by
  simp [weight, jump, writes]

/-- `dict_put` stores the byte, or waits for room. -/
theorem put_sound (byte : UInt8) (hinv : coder.Inv dict.full) (hh : dict.Holds h)
    (h0 : Old dict.full coder.loc.rep0) (hwrites : writes coder.loc.sequence = 1) :
    StepSound coder dict h input
      (match dict.dictPut byte with
      | (noRoom, dict) =>
        if noRoom then .out .ok coder dict input else .more (coder.jump .isMatch) dict input) := by
  by_cases hroom : dict.pos = dict.limit
  · have hput : dict.dictPut byte = (true, dict) := by rw [Dict.dictPut, if_pos hroom]
    rw [hput]
    exact ⟨[], .refl hh, le_rfl, fun _ => hinv⟩
  · obtain ⟨dict', hput, hholds, hpos, hlimit, hsize, hreset⟩ :=
      hh.dictPut byte (Nat.lt_of_le_of_ne hh.pos_le hroom)
    have hgrows : dict.Grows h dict' [byte] := ⟨hholds, hpos, hlimit, hsize, hreset⟩
    rw [hput]
    refine ⟨[byte], hgrows, ?_, ?_⟩
    · exact jump_inv hinv (hgrows.full_le hh) (hgrows.full_pos (by simp))
        (h0.mono (hgrows.full_le hh))
    · rw [jump_weight, weight, hwrites]
      exact Nat.lt_succ_self _

/-- `dict_repeat` repeats what lies at the distance, and keeps the length that is left over. -/
theorem copy_sound (hinv : coder.Inv dict.full) (hh : dict.Holds h)
    (hseq : coder.loc.sequence = .copy) :
    StepSound coder dict h input
      (match dict.dictRepeat coder.loc.rep0 coder.loc.len with
      | (noRoom, len, dict) =>
        let coder := { coder with loc := { coder.loc with len } }
        if noRoom then .out .ok coder dict input
        else .more (coder.jump .isMatch) dict input) := by
  have hlabel := hinv.label.label
  rw [hseq] at hlabel
  have hvalid : dict.dictIsDistanceValid coder.loc.rep0 = true := decide_eq_true hlabel.1
  obtain ⟨dict', hrepeat, hholds, hpos, hlimit, hsize, hreset⟩ :=
    hh.dictRepeat coder.loc.len hvalid
  obtain ⟨xs, hxs, hlength⟩ := extend_append 0 h coder.loc.rep0.toNat
    (min (dict.limit - dict.pos) coder.loc.len.toNat)
  rw [hxs] at hholds
  rw [← hlength] at hpos
  have hgrows : dict.Grows h dict' xs := ⟨hholds, hpos, hlimit, hsize, hreset⟩
  have hle := hgrows.full_le hh
  have hlt : coder.loc.rep0.toNat < dict'.full := Nat.lt_of_lt_of_le hlabel.1 hle
  rw [hrepeat]
  dsimp only
  split_ifs with hleft
  · have hlen : (coder.loc.len -
        UInt32.ofNat (min (dict.limit - dict.pos) coder.loc.len.toNat)).toNat ≤ 273 := by
      rw [Dict.toNat_leftOver _ (Nat.min_le_right ..)]
      exact Nat.le_trans (Nat.sub_le _ _) hlabel.2
    refine ⟨xs, hgrows, le_rfl, fun _ => hinv.move hinv.wide
      ⟨hinv.label.rep1.mono hle, hinv.label.rep2.mono hle, hinv.label.rep3.mono hle, ?_⟩⟩
    dsimp only
    rw [hseq]
    exact ⟨hlt, hlen⟩
  · refine ⟨xs, hgrows, ?_, ?_⟩
    · exact hinv.move hinv.wide
        ⟨hinv.label.rep1.mono hle, hinv.label.rep2.mono hle, hinv.label.rep3.mono hle,
          .inr hlt, fun _ => Nat.lt_of_le_of_lt (Nat.zero_le _) hlt⟩
    · rw [jump_weight, weight, hseq]
      exact Nat.lt_succ_self _

/-- Where the uncompressed size is reached, the loop is left in front of the next symbol. -/
theorem leave_sound (hinv : coder.Inv dict.full) (hh : dict.Holds h)
    (h0 : Old dict.full coder.loc.rep0)
    (hlit : coder.loc.state.isLiteralState = false → 0 < dict.full) :
    StepSound coder dict h input
      (match coder.rc.rcNormalize input with
      | none => .out .ok (coder.jump .normalize) dict input
      | some (rc, input) => .out .ok ({ coder with rc }.jump .isMatch) dict input) := by
  have hloc := hinv.label
  cases hnorm : coder.rc.rcNormalize input with
  | none =>
    exact ⟨[], .refl hh, le_rfl, fun _ =>
      hinv.move hinv.wide ⟨hloc.rep1, hloc.rep2, hloc.rep3, h0, hlit⟩⟩
  | some result =>
    obtain ⟨rc, input'⟩ := result
    obtain ⟨hrange, hweight⟩ := RangeDecoder.rcNormalize_weight hinv.wide hnorm
    have hwide : Wide rc.range := Nat.le_trans (by decide) hrange
    exact ⟨[], .refl hh, RangeDecoder.length_le_of_weight hweight, fun _ =>
      hinv.move hwide ⟨hloc.rep1, hloc.rep2, hloc.rep3, h0, hlit⟩⟩

theorem step_sound (hinv : coder.Inv dict.full) (hh : dict.Holds h) :
    StepSound coder dict h input (coder.step noEopm sequence dict input) := by
  have hsound := action_sound noEopm hinv.configured hinv.label
  have hseq := action_label coder noEopm dict
  have hlabel := hinv.label.label
  have hconf : ∀ rc probabilities, { coder with rc, probabilities }.Configured :=
    fun _ _ => ⟨hinv.configured.posMask, hinv.configured.literal⟩
  unfold step
  cases hact : coder.action noEopm dict with
  | bit prob next =>
    rw [hact] at hsound
    dsimp only
    cases hbit : coder.rc.rcBit (coder.probabilities prob) input with
    | none => exact ⟨[], .refl hh, le_rfl, fun _ => hinv⟩
    | some result =>
      obtain ⟨bit, rc, updated, input'⟩ := result
      obtain ⟨hwide, hupdated, hweight⟩ :=
        RangeDecoder.rcBit_weight hinv.wide (hinv.balanced prob) hbit
      apply follow_sound hh (hconf _ _) hwide _ (hsound.2 bit) hweight
      intro i
      dsimp only
      split_ifs
      · exact hupdated
      · exact hinv.balanced i
  | direct next =>
    rw [hact] at hsound
    dsimp only
    cases hbit : coder.rc.rcDirect input with
    | none => exact ⟨[], .refl hh, le_rfl, fun _ => hinv⟩
    | some result =>
      obtain ⟨bit, rc, input'⟩ := result
      obtain ⟨hwide, hweight⟩ := RangeDecoder.rcDirect_weight hinv.wide hbit
      exact follow_sound hh (hconf _ _) hwide hinv.balanced (hsound bit) hweight
  | normalize ret =>
    rw [hact] at hsound
    dsimp only
    cases hnorm : coder.rc.rcNormalize input with
    | none => exact ⟨[], .refl hh, le_rfl, fun _ => hinv⟩
    | some result =>
      have hweight := (RangeDecoder.rcNormalize_weight hinv.wide hnorm).2
      exact ⟨[], .refl hh, RangeDecoder.length_le_of_weight hweight,
        fun hok => absurd hok hsound⟩
  | put byte =>
    rw [hact] at hseq
    obtain hseq | hseq := hseq
    · rw [hseq] at hlabel
      exact put_sound byte hinv hh hlabel (by rw [hseq]; rfl)
    · rw [hseq] at hlabel
      exact put_sound byte hinv hh hlabel.1 (by rw [hseq]; rfl)
  | copy =>
    rw [hact] at hseq
    exact copy_sound hinv hh hseq
  | leave =>
    rw [hact] at hseq
    obtain hseq | hseq := hseq
    · rw [hseq] at hlabel
      exact leave_sound hinv hh hlabel.1 hlabel.2
    · rw [hseq] at hlabel
      exact leave_sound hinv hh hlabel.1 hlabel.2

/-- With enough turns the main loop comes to its end. -/
theorem loop_sound (noEopm : Bool) (sequence : Sequence) {turns : ℕ}
    (hinv : coder.Inv dict.full) (hh : dict.Holds h) (hturns : coder.weight input < turns) :
    ∃ ret coder' dict' input' xs,
      loop noEopm sequence turns coder dict input = some (ret, coder', dict', input') ∧
      dict.Grows h dict' xs ∧ input'.length ≤ input.length ∧
      (ret = .ok → coder'.Inv dict'.full) := by
  induction turns generalizing coder dict h input with
  | zero => exact absurd hturns (Nat.not_lt_zero _)
  | succ turns ih =>
    have hstep : StepSound coder dict h input (coder.step noEopm sequence dict input) :=
      step_sound hinv hh
    rw [loop, if_pos (hinv.defined hh)]
    cases hprogress : coder.step noEopm sequence dict input with
    | out ret coder' dict' input' =>
      rw [hprogress] at hstep
      obtain ⟨xs, hgrows, hle, hok⟩ := hstep
      exact ⟨ret, coder', dict', input', xs, rfl, hgrows, hle, hok⟩
    | more coder' dict' input' =>
      rw [hprogress] at hstep
      obtain ⟨xs, hgrows, hinv', hweight⟩ := hstep
      have hle : input'.length ≤ input.length := by
        have hwrites := writes_le coder.loc.sequence
        have hle : coder'.rc.weight input' ≤ coder.rc.weight input := by
          unfold weight at hweight
          omega
        exact RangeDecoder.length_le_of_weight hle
      obtain ⟨ret, coder'', dict'', input'', ys, hloop, hgrows', hle', hok⟩ :=
        ih hinv' hgrows.holds (Nat.lt_of_lt_of_le hweight (Nat.le_of_lt_succ hturns))
      exact ⟨ret, coder'', dict'', input'', xs ++ ys, hloop, hgrows.trans hgrows',
        hle'.trans hle, hok⟩

theorem rcReadInit_spec (rc : RangeDecoder) (input : Bytes) :
    (rc.rcReadInit input).2.1.range = rc.range ∧
      (rc.rcReadInit input).2.2.length ≤ input.length := by
  induction input generalizing rc with
  | nil => exact ⟨rfl, le_rfl⟩
  | cons b input ih =>
    rw [RangeDecoder.rcReadInit]
    split_ifs
    · exact ⟨rfl, le_rfl⟩
    · obtain ⟨hrange, hle⟩ := ih ⟨rc.range, rc.code <<< 8 ||| b.toUInt32, rc.initBytesLeft - 1⟩
      exact ⟨hrange, Nat.le_succ_of_le hle⟩

theorem countDecoded_ok {ret : Ret} {decoded : ℕ}
    (hok : (coder.countDecoded ret decoded).1 = .ok) : ret = .ok ∧
      ∃ uncompressedSize, (coder.countDecoded ret decoded).2 = { coder with uncompressedSize } := by
  unfold countDecoded at hok ⊢
  dsimp only at hok ⊢
  split_ifs at hok ⊢ with hknown hend
  · exact ⟨hok, _, rfl⟩
  · exact ⟨hok, _, rfl⟩

theorem finish_ok {ret : Ret} {decoded : ℕ} (hok : (coder.finish ret decoded).1 = .ok) :
    ret = .ok ∧ ∃ uncompressedSize,
      (coder.finish ret decoded).2 = { coder with uncompressedSize } := by
  unfold finish at hok ⊢
  dsimp only at hok ⊢
  split_ifs at hok ⊢ with hend
  exact countDecoded_ok hok

theorem holds_withLimit (limit : ℕ) (hh : dict.Holds h) (hpos : dict.pos ≤ limit)
    (hsize : limit ≤ dict.size) : Dict.Holds { dict with limit } h :=
  ⟨hh.size_eq, hh.size_pos, hh.keeps, hh.full_eq, hpos, hsize, hh.last⟩

theorem limitDict_holds (coder : LzmaDecoder) (hh : dict.Holds h) :
    ∃ limit ≤ dict.limit, coder.limitDict dict = { dict with limit } ∧ dict.pos ≤ limit := by
  unfold limitDict
  have hpos := hh.pos_le
  split_ifs with hknown
  · exact ⟨_, by omega, rfl, Nat.le_add_right _ _⟩
  · exact ⟨_, le_rfl, rfl, hpos⟩

/-- A call of the decoder returns, whatever its input is. -/
theorem lzmaDecode_sound (coder : LzmaDecoder) (dict : Dict) {turns : ℕ}
    (hinv : coder.Inv dict.full) (hh : dict.Holds h)
    (hturns : 2 * ((input.length + 1) * 2 ^ 32) ≤ turns) :
    ∃ ret coder' dict' input' xs,
      coder.lzmaDecode turns dict input = some (ret, coder', dict', input') ∧
      dict.Grows h dict' xs ∧ input'.length ≤ input.length ∧
      (ret = .ok → coder'.Inv dict'.full) := by
  obtain ⟨hrange, hlength⟩ := rcReadInit_spec coder.rc input
  unfold lzmaDecode
  generalize coder.rc.rcReadInit input = init at hrange hlength
  obtain ⟨ready, rc, rest⟩ := init
  dsimp only at hrange hlength ⊢
  have hwide : Wide rc.range := by
    rw [hrange]
    exact hinv.wide
  have hready : { coder with rc }.Inv dict.full := hinv.move hwide hinv.label
  split_ifs with hyes
  · obtain ⟨limit, hle, hlimit, hpos⟩ := limitDict_holds { coder with rc } hh
    have hholds := holds_withLimit limit hh hpos (hle.trans hh.limit_le)
    have hweight : { coder with rc }.weight rest < turns := by
      have hwrites := writes_le coder.loc.sequence
      have hlt := rc.range.toNat_lt
      unfold weight RangeDecoder.weight
      dsimp only
      omega
    have hready' : { coder with rc }.Inv { dict with limit }.full := hready
    rw [hlimit]
    obtain ⟨ret, coder', dict', input', xs, hloop, hgrows, hle', hok⟩ :=
      loop_sound (decide (coder.uncompressedSize ≠ vliUnknown)) coder.loc.sequence
        hready' hholds hweight
    rw [hloop, Option.map_some]
    have hfit : dict'.pos ≤ dict.limit := by
      have hpos' := hgrows.holds.pos_le
      rw [hgrows.limit] at hpos'
      exact hpos'.trans hle
    have hsize : dict.limit ≤ dict'.size := by
      rw [hgrows.size]
      exact hh.limit_le
    have hlast := holds_withLimit dict.limit hgrows.holds hfit hsize
    refine ⟨_, _, _, _, xs, rfl, ⟨hlast, hgrows.pos, rfl, hgrows.size, hgrows.needReset⟩,
      hle'.trans hlength, fun hret => ?_⟩
    obtain ⟨hok', uncompressedSize, hcoder⟩ := finish_ok hret
    have hinv' := hok hok'
    rw [hcoder]
    exact ⟨⟨hinv'.configured.posMask, hinv'.configured.literal⟩, hinv'.label, hinv'.wide,
      hinv'.balanced⟩
  · exact ⟨_, _, _, _, [], rfl, .refl hh, hlength, fun _ => hready⟩

end LzmaDecoder
end Lzma
