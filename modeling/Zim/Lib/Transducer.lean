import Zim.Lib.Decompressor

/-! Machines that take a compressed stream character by character, as decompressors. -/

/-- A machine that refuses a character, or takes it and gives one character of text or none. Once
it is done it takes nothing more. -/
structure Transducer (σ α : Type*) where
  step : σ → α → Option (σ × Option α)
  done : σ → Bool

namespace Transducer
open Compressor
variable {σ α : Type*} (t : Transducer σ α)

/-- The text of a stream that ends with the machine being done. -/
def unpack : σ → List α → Option (List α)
  | s, [] => if t.done s then some [] else none
  | s, a :: as =>
    if t.done s then none
    else match t.step s a with
      | none => none
      | some (s, out) => (unpack s as).map (out.toList ++ ·)

/-- A call takes as much as it has space for the text of, and returns 1 once the machine is done,
0 before that, and -3 for what it refuses. -/
def call : σ → List α → ℕ → Result σ α
  | s, [], _ => ⟨s, 0, [], if t.done s then 1 else 0⟩
  | s, a :: as, space =>
    if t.done s then ⟨s, 0, [], 1⟩
    else match t.step s a with
      | none => ⟨s, 0, [], -3⟩
      | some (s', none) =>
        let r := call s' as space
        { r with consumed := r.consumed + 1 }
      | some (s', some b) =>
        match space with
        | 0 => ⟨s, 0, [], 0⟩
        | space + 1 =>
          let r := call s' as space
          { r with consumed := r.consumed + 1, output := b :: r.output }

/-- The machine as a decompressor, which knows one action. -/
def decompressor : Compressor σ α := fun s _ input space => t.call s input space

/-- The stream that is left stands for the text that is left. -/
def Decoding (s : σ) (packed text : List α) : Prop := t.unpack s packed = some text

variable {t} {s : σ} {packed text input : List α}

/-- What a call leaves of a stream and its text. -/
structure Follows (r : Result σ α) (packed text input : List α) (space : ℕ) : Prop where
  ret : r.ret = 0 ∨ r.ret = 1
  consumed_input : r.consumed ≤ input.length
  consumed_packed : r.consumed ≤ packed.length
  output_le : r.output.length ≤ space
  output_initial : r.output <+: text
  decoding : t.Decoding r.state (packed.drop r.consumed) (text.drop r.output.length)

theorem follows_none (h : t.Decoding s packed text) {ret : ℤ} (hret : ret = 0 ∨ ret = 1)
    (space : ℕ) : Follows (t := t) ⟨s, 0, [], ret⟩ packed text input space :=
  ⟨hret, Nat.zero_le _, Nat.zero_le _, Nat.zero_le _, List.nil_prefix, h⟩

/-- The front of a stream, with some characters behind it, is never refused. -/
theorem call_follows (h : t.Decoding s packed text) {behind : List α}
    (hinput : input <+: packed ++ behind) (space : ℕ) :
    Follows (t := t) (t.call s input space) packed text input space := by
  induction input generalizing s packed text space with
  | nil =>
    rw [call]
    apply follows_none h
    split_ifs <;> simp
  | cons a input ih =>
    rw [call]
    split_ifs with hdone
    · exact follows_none h (.inr rfl) space
    · cases packed with
      | nil => simp [Decoding, unpack, hdone] at h
      | cons b packed =>
        obtain ⟨rfl, hrest⟩ := List.cons_prefix_cons.mp hinput
        cases hstep : t.step s a with
        | none => simp [Decoding, unpack, hdone, hstep] at h
        | some next =>
          obtain ⟨s', out⟩ := next
          have hmap : (t.unpack s' packed).map (out.toList ++ ·) = some text := by
            simpa [Decoding, unpack, hdone, hstep] using h
          obtain ⟨text', htext', rfl⟩ := Option.map_eq_some_iff.mp hmap
          cases out with
          | none =>
            obtain ⟨hret, hin, hpacked, hout, hinitial, hdec⟩ := ih htext' hrest space
            exact ⟨hret, Nat.succ_le_succ hin, Nat.succ_le_succ hpacked, hout, hinitial, hdec⟩
          | some c =>
            cases space with
            | zero => exact follows_none h (.inl rfl) 0
            | succ space =>
              obtain ⟨hret, hin, hpacked, hout, hinitial, hdec⟩ := ih htext' hrest space
              exact ⟨hret, Nat.succ_le_succ hin, Nat.succ_le_succ hpacked, Nat.succ_le_succ hout,
                List.cons_prefix_cons.mpr ⟨rfl, hinitial⟩, hdec⟩

/-- With space for a character of text a call takes some of the stream. -/
theorem consumed_pos (h : t.Decoding s packed text) (hpacked : packed ≠ []) (hinput : input ≠ [])
    {behind : List α} (hinitial : input <+: packed ++ behind) {space : ℕ} (hspace : 0 < space) :
    0 < (t.call s input space).consumed := by
  obtain ⟨a, input, rfl⟩ := List.exists_cons_of_ne_nil hinput
  obtain ⟨b, packed, rfl⟩ := List.exists_cons_of_ne_nil hpacked
  obtain ⟨rfl, -⟩ := List.cons_prefix_cons.mp hinitial
  obtain ⟨space, rfl⟩ : ∃ n, space = n + 1 := ⟨space - 1, by omega⟩
  by_cases hdone : t.done s
  · simp [Decoding, unpack, hdone] at h
  · cases hstep : t.step s a with
    | none => simp [Decoding, unpack, hdone, hstep] at h
    | some next =>
      obtain ⟨s', out⟩ := next
      cases out <;> simp [call, hdone, hstep]

theorem unpacks {accepted : ℤ → Bool} (h0 : accepted 0 = true) (h1 : accepted 1 = true)
    (run : ℤ) : Unpacks t.decompressor accepted run t.Decoding := by
  have hcall {s : σ} {packed text input : List α}
      (h : Offered t.Decoding s packed text input) (space : ℕ) :
      Follows (t := t) (t.decompressor s run input space) packed text input space := by
    obtain ⟨behind, hinput⟩ := h.inside
    exact call_follows h.decoding hinput space
  constructor
  case accepts =>
    intro s packed text input space h _
    obtain hret | hret := (hcall h space).ret
    · rw [hret, h0]
    · rw [hret, h1]
  case consumed_le =>
    intro s packed text input space h _
    exact Nat.le_min.mpr ⟨(hcall h space).consumed_input, (hcall h space).consumed_packed⟩
  case output_le => exact fun h _ => (hcall h _).output_le
  case output_initial => exact fun h _ => (hcall h _).output_initial
  case follows => exact fun h _ => (hcall h _).decoding
  case advances =>
    intro s packed text input space h hspace
    obtain ⟨behind, hinput⟩ := h.inside
    exact .now (.inl (consumed_pos h.decoding h.unfinished h.offers hinput hspace))
  case complete =>
    intro s text h
    rw [Decoding, unpack] at h
    split_ifs at h
    exact (Option.some.inj h).symm

end Transducer
