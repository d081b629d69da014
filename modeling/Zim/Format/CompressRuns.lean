import Zim.Format.CompressStream

/-! The calls that a stream makes of its compressor from the first one to the end of the stream. -/
namespace Compressor
variable {σ α : Type*} (z : Compressor σ α) (accepted : ℤ → Bool)

/-- A state behind some calls with the action `run`. -/
inductive Ran (run : ℤ) (space : ℕ) (init : σ) : σ × List (Call α) → Prop
  | start : Ran run space init (init, [])
  | call {s : σ × List (Call α)} (h : Ran run space init s) (input : List α)
    (hok : accepted (z.logged s run input space).ret = true) :
    Ran run space init (z.logged s run input space).state

/-- The calls with the action `finish` for some input and for what is left of it, up to the one that
returns `streamEnd`. -/
inductive Ends (finish : ℤ) (space : ℕ) (streamEnd : ℤ) :
    σ × List (Call α) → List α → List (Call α) → Prop
  | last {s : σ × List (Call α)} {input : List α}
    (hret : (z.logged s finish input space).ret = streamEnd) :
    Ends finish space streamEnd s input (z.logged s finish input space).state.2
  | more {s : σ × List (Call α)} {input : List α} {calls : List (Call α)}
    (hret : (z.logged s finish input space).ret ≠ streamEnd)
    (hok : accepted (z.logged s finish input space).ret = true)
    (h : Ends finish space streamEnd (z.logged s finish input space).state
      (input.drop (z.logged s finish input space).consumed) calls) :
    Ends finish space streamEnd s input calls

/-- All calls for a stream: some with `run` and those that end it. -/
def Whole (run finish : ℤ) (space : ℕ) (streamEnd : ℤ) (init : σ) (calls : List (Call α)) : Prop :=
  ∃ s input, Ran z accepted run space init s ∧ Ends z accepted finish space streamEnd s input calls

end Compressor

namespace Zim.StreamBuf
open Cxx Compressor Fallible

variable {σ : Type} {lib : Library} {z : Compressor σ UInt8} {sputn : Bytes → Bytes → ℕ}
  {init : σ} {turns : ℕ} {s s' : StreamBuf (σ × List (Call UInt8))}

/-- All calls so far were calls with the action of `overflow`. -/
abbrev Running (lib : Library) (z : Compressor σ UInt8) (init : σ)
    (s : StreamBuf (σ × List (Call UInt8))) : Prop :=
  Ran z lib.accepted lib.run zbufferSize init s.stream

theorem sputcOr_running {put : StreamBuf (σ × List (Call UInt8)) → Option UInt8 →
    Except StreamError (Bool × StreamBuf (σ × List (Call UInt8)))} {ch : UInt8} {ok : Bool}
    (hput : put s (some ch) = .ok (ok, s') → Running lib z init s')
    (hs : Running lib z init s) (h : sputcOr put s ch = .ok (ok, s')) :
    Running lib z init s' := by
  rw [sputcOr] at h
  split_ifs at h
  · cases h
    exact hs
  · exact hput h

theorem overflow_running {c : Option UInt8} {ok : Bool} (hs : Running lib z init s)
    (h : overflow lib z.logged sputn turns s c = .ok (ok, s')) : Running lib z init s' := by
  induction turns generalizing s s' c ok with
  | zero => cases h
  | succ turns ih =>
    have hcall (hok : lib.accepted (z.logged s.stream lib.run s.obuffer zbufferSize).ret = true) :
        Ran z lib.accepted lib.run zbufferSize init
          (z.logged s.stream lib.run s.obuffer zbufferSize).state := .call hs s.obuffer hok
    have hstream : (s.send sputn (z.logged s.stream lib.run s.obuffer zbufferSize)).2.stream =
      (z.logged s.stream lib.run s.obuffer zbufferSize).state := rfl
    simp only [overflow] at h
    generalize z.logged s.stream lib.run s.obuffer zbufferSize = r at h hcall hstream
    generalize s.send sputn r = q at h hstream
    obtain ⟨all, sent⟩ := q
    cases hret : lib.accepted r.ret with
    | false => simp [hret] at h
    | true =>
      have hsent : Ran z lib.accepted lib.run zbufferSize init sent.stream := by
        rw [show sent.stream = r.state from hstream]
        exact hcall hret
      cases all with
      | false =>
        simp only [hret, Bool.not_true, Bool.false_eq_true, if_false, Bool.not_false, if_true] at h
        cases h
        exact hsent
      | true =>
        simp only [hret, Bool.not_true, Bool.false_eq_true, if_false] at h
        cases c with
        | none =>
          cases h
          exact hsent
        | some ch =>
          dsimp only at h
          split at h
          · cases h
          · next ok' s'' hput =>
            cases h
            have hnext : Running lib z init { sent with obuffer := s.obuffer.drop r.consumed } :=
              hsent
            exact sputcOr_running (ih hnext) hnext hput

theorem write_running {chs : Bytes} (hs : Running lib z init s)
    (h : write lib z.logged sputn turns s chs = .ok s') : Running lib z init s' := by
  induction chs generalizing s with
  | nil =>
    cases h
    exact hs
  | cons ch chs ih =>
    rw [write] at h
    split at h
    · cases h
    · cases h
    · next s₁ hput => exact ih (sputcOr_running (overflow_running hs) hs hput) h

theorem writeAll_running {writes : List Bytes} (hs : Running lib z init s)
    (h : writeAll lib z.logged sputn turns s writes = .ok s') : Running lib z init s' := by
  induction writes generalizing s with
  | nil =>
    cases h
    exact hs
  | cons chs writes ih =>
    rw [writeAll, List.foldlM_cons, bind_eq_ok] at h
    obtain ⟨s₁, hwrite, h⟩ := h
    exact ih (write_running hs hwrite) h

theorem endLoop_ends {input : Bytes} (h : endLoop lib z.logged sputn turns input s = .ok s') :
    Ends z lib.accepted lib.finish zbufferSize lib.streamEnd s.stream input s'.stream.2 := by
  induction turns generalizing s input with
  | zero => cases h
  | succ turns ih =>
    have hstream : (s.send sputn (z.logged s.stream lib.finish input zbufferSize)).2.stream =
      (z.logged s.stream lib.finish input zbufferSize).state := rfl
    simp only [endLoop] at h
    generalize s.send sputn (z.logged s.stream lib.finish input zbufferSize) = q at h hstream
    obtain ⟨all, sent⟩ := q
    have hsent : sent.stream = (z.logged s.stream lib.finish input zbufferSize).state := hstream
    split_ifs at h with hret hall hend
    · cases h
      rw [hsent]
      exact .last hend
    · have hrest := ih h
      rw [hsent] at hrest
      exact .more hend (by simpa using hret) hrest

/-- The calls of a whole stream. -/
theorem compress_whole {bufsize : ℕ} {writes : List Bytes}
    (h : compress lib z.logged sputn turns (new (init, []) bufsize) writes = .ok s') :
    Whole z lib.accepted lib.run lib.finish zbufferSize lib.streamEnd init s'.stream.2 := by
  obtain ⟨s, hwrites, hend⟩ := bind_eq_ok.mp h
  exact ⟨s.stream, s.obuffer, writeAll_running .start hwrites, endLoop_ends hend⟩

end Zim.StreamBuf
