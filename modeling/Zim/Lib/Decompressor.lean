import Zim.Lib.Compressor
import Zim.Lib.Fallible

/-! Decompressors, which are called with some of a compressed stream and some space for its text,
and the sources that they are fed from. -/
namespace Compressor
variable {σ α : Type*} (z : Compressor σ α)

/-- Calls that are repeated with the same input take some of it, or give some output, in the
end. -/
inductive Advances (run : ℤ) (space : ℕ) : σ → List α → Prop
  | now {s : σ} {input : List α}
    (h : 0 < (z s run input space).consumed ∨ (z s run input space).output ≠ []) :
    Advances run space s input
  | later {s : σ} {input : List α} (hnone : (z s run input space).consumed = 0)
    (hsilent : (z s run input space).output = [])
    (h : Advances run space (z s run input space).state input) : Advances run space s input

/-- Some input in a state in front of which `packed` is left of a compressed stream and `text` of
what it stands for. The input may go on behind the end of the stream. -/
structure Offered (decoding : σ → List α → List α → Prop) (s : σ) (packed text input : List α) :
    Prop where
  decoding : decoding s packed text
  unfinished : packed ≠ []
  offers : input ≠ []
  inside : ∃ behind, input <+: packed ++ behind

/-- What is assumed of a decompressor: its calls follow the stream and its text up to their end,
and with the last of the stream the whole text was given. -/
structure Unpacks (accepted : ℤ → Bool) (run : ℤ) (decoding : σ → List α → List α → Prop) :
    Prop where
  accepts : ∀ {s packed text input space}, Offered decoding s packed text input → 0 < space →
    accepted (z s run input space).ret = true
  consumed_le : ∀ {s packed text input space}, Offered decoding s packed text input → 0 < space →
    (z s run input space).consumed ≤ min input.length packed.length
  output_le : ∀ {s packed text input space}, Offered decoding s packed text input → 0 < space →
    (z s run input space).output.length ≤ space
  output_initial : ∀ {s packed text input space}, Offered decoding s packed text input →
    0 < space → (z s run input space).output <+: text
  follows : ∀ {s packed text input space}, Offered decoding s packed text input → 0 < space →
    decoding (z s run input space).state (packed.drop (z s run input space).consumed)
      (text.drop (z s run input space).output.length)
  advances : ∀ {s packed text input space}, Offered decoding s packed text input → 0 < space →
    Advances z run space s input
  complete : ∀ {s text}, decoding s [] text → text = []

section Ret
variable {z} {accepted : ℤ → Bool} {run : ℤ} {decoding : σ → List α → List α → Prop} {f : ℤ → ℤ}

/-- The same calls with other codes. -/
def mapRet (z : Compressor σ α) (f : ℤ → ℤ) : Compressor σ α := fun s action input space =>
  let r := z s action input space
  { r with ret := f r.ret }

theorem Advances.mapRet {space : ℕ} {s : σ} {input : List α} (h : Advances z run space s input) :
    Advances (z.mapRet f) run space s input := by
  induction h with
  | now h => exact .now h
  | later hnone hsilent _ ih => exact .later hnone hsilent ih

theorem Unpacks.mapRet (h : Unpacks z accepted run decoding)
    (hf : ∀ ret, accepted ret = true → accepted (f ret) = true) :
    Unpacks (z.mapRet f) accepted run decoding where
  accepts hoffer hspace := hf _ (h.accepts hoffer hspace)
  consumed_le := h.consumed_le
  output_le := h.output_le
  output_initial := h.output_initial
  follows := h.follows
  advances hoffer hspace := (h.advances hoffer hspace).mapRet
  complete := h.complete

end Ret

end Compressor

/-- A stream buffer as its readers use it. -/
structure Source (ε ς α : Type*) where
  inAvail : ς → ℤ
  sgetn : ς → ℕ → Except ε (List α × ς)

/-- In the states that `holds` relates to some characters the source delivers these, and it does
not announce more of them than there are. -/
structure Source.Serves {ε ς α : Type*} (src : Source ε ς α) (holds : ς → List α → Prop) :
    Prop where
  inAvail_le : ∀ {s bs}, holds s bs → src.inAvail s ≤ bs.length
  sgetn : ∀ {s bs} (n : ℕ), holds s bs →
    ∃ s', src.sgetn s n = .ok (bs.take n, s') ∧ holds s' (bs.drop n)

/-- Characters in memory, of which any number may be announced. -/
def Source.memory {ε α : Type*} (announced : List α → ℕ) : Source ε (List α) α where
  inAvail bs := min (announced bs) bs.length
  sgetn bs n := .ok (bs.take n, bs.drop n)

theorem Source.memory_serves {ε α : Type*} (announced : List α → ℕ) :
    (Source.memory announced : Source ε (List α) α).Serves Eq where
  inAvail_le := by
    rintro bs _ rfl
    exact Int.min_le_right _ _
  sgetn n h := by
    subst h
    exact ⟨_, rfl, rfl⟩
