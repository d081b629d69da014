import Zim.Lib.Streams

/-! `urldecode` (file.cpp) against the decoding of percent escapes. -/
namespace Zim
open Cxx

/-- The digits `0` to `9`, `A` to `F` and `a` to `f`. -/
def isHexDigit (ch : UInt8) : Bool :=
  (0x30 ≤ ch && ch ≤ 0x39) || (0x41 ≤ ch && ch ≤ 0x46) || (0x61 ≤ ch && ch ≤ 0x66)

def hexval (ch : UInt8) : ℤ :=
  if 0x30 ≤ ch && ch ≤ 0x39 then ch.toNat - 0x30
  else if 0x61 ≤ ch && ch ≤ 0x66 then ch.toNat - 0x61 + 10
  else if 0x41 ≤ ch && ch ≤ 0x46 then ch.toNat - 0x41 + 10
  else -1

namespace UrlDecode

inductive State where
  | state0 | stateH1 | stateH2
  deriving DecidableEq, Repr

/-- The local variables of `urldecode`; `ch` is set before it is used. -/
structure Vars where
  state : State
  ch : UInt8
  ret : Bytes
  deriving DecidableEq, Repr

def percent : UInt8 := 0x25
def plus : UInt8 := 0x2b

/-- One turn of the loop for the character `c`. -/
def step (v : Vars) (c : UInt8) : Vars :=
  match v.state with
  | .state0 =>
    if c = plus then { v with ret := v.ret ++ [0x20] }
    else if c = percent then { v with state := .stateH1 }
    else { v with ret := v.ret ++ [c] }
  | .stateH1 =>
    if isHexDigit c then { v with ch := c, state := .stateH2 }
    else { v with ret := v.ret ++ [percent, c], state := .state0 }
  | .stateH2 =>
    if isHexDigit c then
      { v with ret := v.ret ++ [UInt8.ofInt (hexval v.ch * 16 + hexval c)], state := .state0 }
    else { v with ret := v.ret ++ [UInt8.ofInt (hexval v.ch), c], state := .state0 }

/-- The switch behind the loop. -/
def finish (v : Vars) : Bytes :=
  match v.state with
  | .state0 => v.ret
  | .stateH1 => v.ret ++ [percent]
  | .stateH2 => v.ret ++ [percent, v.ch]

end UrlDecode

open UrlDecode

def urldecode (url : Bytes) : Bytes := finish (url.foldl step ⟨.state0, 0, []⟩)

namespace UrlDecode

/-- The byte that two digits stand for. -/
def escaped (h l : UInt8) : UInt8 := UInt8.ofInt (hexval h * 16 + hexval l)

/-- A character that is not of an escape. -/
def copied (c : UInt8) : UInt8 := if c = plus then 0x20 else c

/-- The decoding of `%XX` and `+`. -/
def decode : Bytes → Bytes
  | c :: h :: l :: s =>
    if c = percent ∧ isHexDigit h ∧ isHexDigit l then escaped h l :: decode s
    else copied c :: decode (h :: l :: s)
  | [c, d] => [copied c, copied d]
  | [c] => [copied c]
  | [] => []

/-- Whether a text begins with two digits. -/
def beginsWithDigits : Bytes → Bool
  | h :: l :: _ => isHexDigit h && isHexDigit l
  | _ => false

/-- The texts without a `%` whose digits are missing in one of the ways that are not copied: no
escape begins before `+`, or has one digit and another character behind it, and behind `%%` there
are no two digits. -/
def Regular : Bytes → Bool
  | c :: x :: y :: s =>
    if c ≠ percent then Regular (x :: y :: s)
    else if isHexDigit x then isHexDigit y && Regular s
    else if x = plus then false
    else !(x = percent && beginsWithDigits (y :: s)) && Regular (y :: s)
  | [c, x] => !(c = percent && x = plus)
  | [_] => true
  | [] => true

section Digits
variable {h l c : UInt8}

theorem digit_bounds (hd : isHexDigit c = true) :
    0 ≤ hexval c ∧ hexval c < 16 ∧ c ≠ plus ∧ c ≠ percent := by
  have hall : ∀ n < 256, isHexDigit (UInt8.ofNat n) = true →
      0 ≤ hexval (UInt8.ofNat n) ∧ hexval (UInt8.ofNat n) < 16 ∧
        UInt8.ofNat n ≠ plus ∧ UInt8.ofNat n ≠ percent := by decide +kernel
  have hc := hall c.toNat c.toNat_lt
  rw [UInt8.ofNat_toNat] at hc
  exact hc hd

theorem eq_of_escaped (hh : isHexDigit h = true) (hl : isHexDigit l = true)
    (heq : escaped h l = percent) : h = 0x32 ∧ l = 0x35 := by
  have hall : ∀ n < 256, isHexDigit (UInt8.ofNat n) = true →
      (hexval (UInt8.ofNat n) = 2 → UInt8.ofNat n = 0x32) ∧
        (hexval (UInt8.ofNat n) = 5 → UInt8.ofNat n = 0x35) := by decide +kernel
  obtain ⟨hh0, hh16, -, -⟩ := digit_bounds hh
  obtain ⟨hl0, hl16, -, -⟩ := digit_bounds hl
  have hvalue : hexval h * 16 + hexval l = 37 := by
    have hbyte := congrArg UInt8.toNat heq
    rw [escaped, UInt8.ofInt, UInt8.toNat_ofNat', show percent.toNat = 37 from rfl] at hbyte
    omega
  have htwo := (hall h.toNat h.toNat_lt)
  have hfive := (hall l.toNat l.toNat_lt)
  rw [UInt8.ofNat_toNat] at htwo hfive
  exact ⟨(htwo hh).1 (by omega), (hfive hl).2 (by omega)⟩

/-- A half of an escape is no printable character. -/
theorem half_ne_percent (hd : isHexDigit c = true) : UInt8.ofInt (hexval c) ≠ percent := by
  have hall : ∀ n < 256, isHexDigit (UInt8.ofNat n) = true →
      UInt8.ofInt (hexval (UInt8.ofNat n)) ≠ percent := by decide +kernel
  have hc := hall c.toNat c.toNat_lt
  rw [UInt8.ofNat_toNat] at hc
  exact hc hd

end Digits

section Loop
variable {h l c : UInt8} (s : Bytes)

/-- What is in front of the text in `ret` stays there, and an old digit is not used. -/
theorem finish_foldl (r : Bytes) {v v' : Vars} (hstate : v'.state = v.state)
    (hret : v'.ret = r ++ v.ret) (hch : v.state = .stateH2 → v'.ch = v.ch) :
    finish (s.foldl step v') = r ++ finish (s.foldl step v) := by
  induction s generalizing v v' with
  | nil =>
    simp only [List.foldl_nil, finish, hstate]
    cases hs : v.state with
    | state0 => exact hret
    | stateH1 => simp only [hret, List.append_assoc]
    | stateH2 => simp only [hret, hch hs, List.append_assoc]
  | cons c s ih =>
    simp only [List.foldl_cons]
    apply ih
    · simp only [step, hstate]
      cases hs : v.state with
      | state0 | stateH1 | stateH2 =>
        simp only
        split_ifs <;> rfl
    · simp only [step, hstate]
      cases hs : v.state with
      | state0 | stateH1 =>
        simp only
        split_ifs <;> simp only [hret, List.append_assoc]
      | stateH2 =>
        simp only [hret, hch hs, List.append_assoc, apply_ite Vars.ret]
        split_ifs <;> rfl
    · simp only [step, hstate]
      cases hs : v.state with
      | state0 =>
        simp only
        split_ifs <;> simp
      | stateH1 =>
        simp only
        split_ifs <;> simp
      | stateH2 =>
        simp only
        split_ifs <;> simp

theorem urldecode_from (ch : UInt8) (ret : Bytes) :
    finish (s.foldl step ⟨.state0, ch, ret⟩) = ret ++ urldecode s :=
  finish_foldl s ret rfl (List.append_nil ret).symm nofun

theorem urldecode_copied (hc : c ≠ percent) : urldecode (c :: s) = copied c :: urldecode s := by
  by_cases hp : c = plus
  · have hstep : step ⟨.state0, 0, []⟩ c = ⟨.state0, 0, [0x20]⟩ := by simp [step, hp]
    rw [urldecode, List.foldl_cons, hstep, urldecode_from, copied, if_pos hp]
    rfl
  · have hstep : step ⟨.state0, 0, []⟩ c = ⟨.state0, 0, [c]⟩ := by simp [step, hp, hc]
    rw [urldecode, List.foldl_cons, hstep, urldecode_from, copied, if_neg hp]
    rfl

theorem urldecode_last (c : UInt8) : urldecode [c] = [copied c] := by
  by_cases hc : c = percent
  · subst hc
    decide
  · rw [urldecode_copied _ hc]
    rfl

/-- A `%` before a character that is no digit is copied with this character. -/
theorem urldecode_percent (hc : isHexDigit c = false) :
    urldecode (percent :: c :: s) = percent :: c :: urldecode s := by
  have hstep : step (step ⟨.state0, 0, []⟩ percent) c = ⟨.state0, 0, [percent, c]⟩ := by
    simp [step, hc, show percent ≠ plus by decide]
  rw [urldecode, List.foldl_cons, List.foldl_cons, hstep, urldecode_from]
  rfl

theorem urldecode_escape (hh : isHexDigit h = true) (hl : isHexDigit l = true) :
    urldecode (percent :: h :: l :: s) = escaped h l :: urldecode s := by
  have hstep : step (step (step ⟨.state0, 0, []⟩ percent) h) l =
      ⟨.state0, h, [escaped h l]⟩ := by
    simp [step, hh, hl, escaped, show percent ≠ plus by decide]
  rw [urldecode, List.foldl_cons, List.foldl_cons, List.foldl_cons, hstep, urldecode_from]
  rfl

/-- The value of a single digit takes the place of it and of the `%`. -/
theorem urldecode_half (hh : isHexDigit h = true) (hc : isHexDigit c = false) :
    urldecode (percent :: h :: c :: s) = UInt8.ofInt (hexval h) :: c :: urldecode s := by
  have hstep : step (step (step ⟨.state0, 0, []⟩ percent) h) c =
      ⟨.state0, h, [UInt8.ofInt (hexval h), c]⟩ := by
    simp [step, hh, hc, show percent ≠ plus by decide]
  rw [urldecode, List.foldl_cons, List.foldl_cons, List.foldl_cons, hstep, urldecode_from]
  rfl

end Loop

section Decode
variable {h l c : UInt8} {s : Bytes}

theorem copied_percent : copied percent = percent := by decide

theorem decode_copied (hc : c = percent → beginsWithDigits s = false) :
    decode (c :: s) = copied c :: decode s := by
  match s with
  | [] => rfl
  | [d] => rfl
  | h :: l :: s =>
    rw [decode, if_neg]
    rintro ⟨hp, hh, hl⟩
    have hdigits := hc hp
    rw [beginsWithDigits, hh, hl] at hdigits
    cases hdigits

theorem decode_escape (hh : isHexDigit h = true) (hl : isHexDigit l = true) :
    decode (percent :: h :: l :: s) = escaped h l :: decode s := by
  rw [decode, if_pos ⟨rfl, hh, hl⟩]

/-- Where the decoding begins with a byte other than `%`, both agree on it and on where they
go on. -/
theorem decode_eq_cons {b : UInt8} {t : Bytes} (hb : b ≠ percent) (hs : decode s = b :: t) :
    ∃ s', s'.length < s.length ∧ decode s' = t ∧ urldecode s = b :: urldecode s' := by
  match s with
  | [] => cases hs
  | c :: s =>
    by_cases hc : c = percent
    · subst hc
      by_cases hdigits : beginsWithDigits s = true
      · match s with
        | h :: l :: s =>
          rw [beginsWithDigits, Bool.and_eq_true] at hdigits
          obtain ⟨hh, hl⟩ := hdigits
          rw [decode_escape hh hl, List.cons.injEq] at hs
          obtain ⟨rfl, rfl⟩ := hs
          exact ⟨s, by simp only [List.length_cons]; omega, rfl, urldecode_escape s hh hl⟩
      · rw [decode_copied fun _ => eq_false_of_ne_true hdigits, copied_percent,
          List.cons.injEq] at hs
        exact absurd hs.1.symm hb
    · rw [decode_copied fun hp => absurd hp hc, List.cons.injEq] at hs
      obtain ⟨rfl, rfl⟩ := hs
      exact ⟨s, Nat.lt_succ_self _, rfl, urldecode_copied s hc⟩

/-- The digits of an escaped `%` are not written twice by chance. -/
theorem digits_ne_decode (s : Bytes) : 0x32 :: 0x35 :: urldecode s ≠ decode s := by
  induction hn : s.length using Nat.strong_induction_on generalizing s with
  | h n ih =>
    subst hn
    intro heq
    obtain ⟨s₁, hlen₁, hdecode₁, hurl₁⟩ := decode_eq_cons (by decide) heq.symm
    obtain ⟨s₂, hlen₂, hdecode₂, hurl₂⟩ := decode_eq_cons (by decide) hdecode₁
    apply ih s₂.length (hlen₂.trans hlen₁) s₂ rfl
    rw [hdecode₂, hurl₁, hurl₂]

/-- Behind `%%` no two digits are taken for an escape. -/
theorem decode_ne_of_percent (hh : isHexDigit h = true) (hl : isHexDigit l = true) (s : Bytes) :
    decode (percent :: percent :: h :: l :: s) ≠ urldecode (percent :: percent :: h :: l :: s) := by
  obtain ⟨-, -, hplus, hpercent⟩ := digit_bounds hh
  obtain ⟨-, -, hplus', hpercent'⟩ := digit_bounds hl
  have hfirst : decode (percent :: percent :: h :: l :: s) =
      percent :: escaped h l :: decode s := by
    have hnone : percent = percent → beginsWithDigits (percent :: h :: l :: s) = false :=
      fun _ => rfl
    rw [decode_copied hnone, decode_escape hh hl]
    rfl
  rw [hfirst, urldecode_percent _ (by decide), urldecode_copied _ hpercent,
    urldecode_copied _ hpercent', copied, copied, if_neg hplus, if_neg hplus']
  intro heq
  simp only [List.cons.injEq, true_and] at heq
  obtain ⟨hbyte, heq⟩ := heq
  obtain ⟨rfl, rfl⟩ := eq_of_escaped hh hl hbyte
  exact digits_ne_decode s heq.symm

end Decode

section Agreement
variable {x y : UInt8} (s : Bytes)

/-- Behind `%` and a digit both agree exactly if the second digit is there. -/
theorem agrees_digit_iff (hx : isHexDigit x = true) :
    urldecode (percent :: x :: y :: s) = decode (percent :: x :: y :: s) ↔
      isHexDigit y = true ∧ urldecode s = decode s := by
  by_cases hy : isHexDigit y = true
  · rw [urldecode_escape s hx hy, decode_escape hx hy, List.cons.injEq]
    simp only [hy, true_and]
  · have hy' := eq_false_of_ne_true hy
    have hdigits : percent = percent → beginsWithDigits (x :: y :: s) = false := fun _ => by
      rw [beginsWithDigits, hy', Bool.and_false]
    rw [urldecode_half s hx hy', decode_copied hdigits, copied_percent, List.cons.injEq]
    exact iff_of_false (fun h => half_ne_percent hx h.1) (fun h => hy h.1)

/-- Behind `%` and a character that is no digit the decoding takes up the rest where it is. -/
theorem decode_percent (hx : isHexDigit x = false) :
    decode (percent :: x :: s) = percent :: decode (x :: s) := by
  have hnone : percent = percent → beginsWithDigits (x :: s) = false := fun _ => by
    cases s with
    | nil => rfl
    | cons y s => rw [beginsWithDigits, hx, Bool.false_and]
  rw [decode_copied hnone, copied_percent]

/-- A `+` behind `%` is copied, and should be a blank. -/
theorem urldecode_plus_ne : urldecode (percent :: plus :: s) ≠ decode (percent :: plus :: s) := by
  have hplus : isHexDigit plus = false := rfl
  rw [urldecode_percent _ hplus, decode_percent _ hplus,
    decode_copied fun h => absurd h (by decide)]
  intro h
  cases (List.cons.inj h).2

/-- Behind `%` and another character both agree exactly if this is not a `%` with its digits, and
they agree on the rest. -/
theorem agrees_other_iff (hx : isHexDigit x = false) (hplus : x ≠ plus) :
    urldecode (percent :: x :: s) = decode (percent :: x :: s) ↔
      (x = percent → beginsWithDigits s = false) ∧ urldecode s = decode s := by
  have hkept : copied x = x := if_neg hplus
  by_cases hrest : x = percent → beginsWithDigits s = false
  · rw [urldecode_percent _ hx, decode_percent _ hx, decode_copied hrest, hkept]
    simp only [List.cons.injEq, true_and]
    exact (and_iff_right hrest).symm
  · refine iff_of_false ?_ fun h => hrest h.1
    obtain ⟨rfl, hdigits⟩ := Classical.not_imp.mp hrest
    match s with
    | h :: l :: s =>
      rw [beginsWithDigits, Bool.not_eq_false, Bool.and_eq_true] at hdigits
      obtain ⟨hh, hl⟩ := hdigits
      exact (decode_ne_of_percent hh hl s).symm

/-- A last `%` and the character behind it are copied. -/
theorem agrees_pair_iff : urldecode [percent, x] = decode [percent, x] ↔ x ≠ plus := by
  have hcopied : urldecode [percent, x] = [percent, x] := by
    by_cases hx : isHexDigit x = true
    · simp [urldecode, finish, step, hx, show percent ≠ plus by decide]
    · exact urldecode_percent [] (eq_false_of_ne_true hx)
  rw [hcopied, decode, copied_percent]
  by_cases hplus : x = plus
  · subst hplus
    decide
  · rw [copied, if_neg hplus]
    exact iff_of_true rfl hplus

end Agreement

/-- A text is decoded as it should be exactly if no escape in it is broken off in one of the ways
that are not copied. -/
theorem urldecode_eq_decode_iff (s : Bytes) : urldecode s = decode s ↔ Regular s = true := by
  fun_induction Regular s with
  | case1 c x y s hc ih =>
    rw [urldecode_copied _ hc, decode_copied fun h => absurd h hc, List.cons.injEq]
    simp only [true_and, ih]
  | case2 c x y s hc hx ih =>
    obtain rfl := not_not.mp hc
    rw [agrees_digit_iff s hx, Bool.and_eq_true, ih]
  | case3 c y s hc hx =>
    obtain rfl := not_not.mp hc
    exact iff_of_false (urldecode_plus_ne _) Bool.false_ne_true
  | case4 c x y s hc hx hplus ih =>
    obtain rfl := not_not.mp hc
    rw [agrees_other_iff _ (eq_false_of_ne_true hx) hplus, ih]
    simp [imp_iff_not_or]
  | case5 c x =>
    by_cases hc : c = percent
    · subst hc
      rw [agrees_pair_iff]
      simp
    · rw [urldecode_copied _ hc, urldecode_last, decode]
      simp [hc]
  | case6 c =>
    rw [urldecode_last, decode]
    exact iff_of_true rfl rfl
  | case7 => exact iff_of_true rfl rfl

/-- In `%4g` the `%` is lost. -/
theorem urldecode_ne_decode : ¬ ∀ s : Bytes, urldecode s = decode s := by
  intro h
  exact absurd (h [percent, 0x34, 0x67]) (by decide)

end UrlDecode
end Zim
