import Zim.Lib.Compressor
import Zim.Lib.Streams

/-! What zlib does with a text that it cannot make smaller: it stores it in blocks. The texts are
shorter than a block can be. -/
namespace Zim.StoredBlocks
open Cxx Compressor

/-- The output that waits for space, what was taken since the last block, and all that was taken. -/
structure State where
  pending : Bytes
  block : Bytes
  text : Bytes
  finished : Bool
  deriving DecidableEq, Repr

/-- The header of zlib is put out by the first call. -/
def init : State := ⟨[0x78, 0x9c], [], [], false⟩

def storedBlock (final : Bool) (bs : Bytes) : Bytes :=
  (if final then 1 else 0) :: (LittleEndian.encode 2 bs.length ++
    LittleEndian.encode 2 (2 ^ 16 - 1 - bs.length) ++ bs)

/-- The two sums of Adler-32. -/
def adler (bs : Bytes) : ℕ × ℕ :=
  bs.foldl (fun (a, b) x => ((a + x.toNat) % 65521, (b + a + x.toNat) % 65521)) (1, 0)

def trailer (bs : Bytes) : Bytes :=
  (LittleEndian.encode 2 (adler bs).2).reverse ++ (LittleEndian.encode 2 (adler bs).1).reverse

/-- `Z_NO_FLUSH`, `Z_SYNC_FLUSH` and `Z_FINISH`. -/
def noFlush : ℤ := 0
def syncFlush : ℤ := 2
def finish : ℤ := 4

/-- All of the input is taken. A flush ends the block and puts an empty one behind it. -/
def State.absorb (s : State) (action : ℤ) (input : Bytes) : State :=
  let block := s.block ++ input
  let text := s.text ++ input
  if action = syncFlush then
    { s with pending := s.pending ++ storedBlock false block ++ storedBlock false [], block := [],
             text }
  else if action = finish ∧ s.finished = false then
    ⟨s.pending ++ storedBlock true block ++ trailer text, [], text, true⟩
  else { s with block, text }

def deflate : Compressor State UInt8 := fun s action input space =>
  let s := s.absorb action input
  ⟨{ s with pending := s.pending.drop space }, input.length, s.pending.take space,
    if s.finished ∧ s.pending.length ≤ space then 1 else 0⟩

/-- Bytes that take more with the fixed codes of zlib than in a stored block. -/
def thirty : Bytes := (List.range 30).map fun i => UInt8.ofNat (200 + i)

section Flush

/-- The empty block that a flush ends with. -/
def mark : Bytes := storedBlock false []

/-- The output that waits for space behind a flush, without the mark. -/
def State.owes (s : State) : Bytes := s.pending.take (s.pending.length - mark.length)

/-- The output of a flush, without the mark. -/
def State.owed (s : State) (input : Bytes) : Bytes :=
  s.pending ++ storedBlock false (s.block ++ input)

theorem owed_length (s : State) (input : Bytes) :
    (s.owed input).length = s.pending.length + s.block.length + input.length + 5 := by
  simp [State.owed, storedBlock]
  omega

theorem owes_absorb (s : State) (input : Bytes) (space : ℕ) :
    State.owes { s.absorb syncFlush input with
      pending := (s.absorb syncFlush input).pending.drop space } =
        (s.owed input).drop space := by
  have hpending : (s.absorb syncFlush input).pending = s.owed input ++ mark := by
    rw [State.absorb, if_pos rfl]
    rfl
  simp only [State.owes, hpending, List.length_drop, List.length_append]
  by_cases hspace : space ≤ (s.owed input).length
  · have hlen : (s.owed input).length + mark.length - space - mark.length =
        (s.owed input).length - space := by omega
    rw [hlen, List.drop_append_of_le_length hspace]
    exact List.take_left' List.length_drop
  · have hlen : (s.owed input).length + mark.length - space - mark.length = 0 := by omega
    rw [hlen, List.take_zero, List.drop_eq_nil_of_le (by omega)]

end Flush

section Laws
variable {space : ℕ} (s : State) (input : Bytes)

theorem absorb_noFlush : (s.absorb noFlush input).finished = s.finished := by
  simp [State.absorb, noFlush, syncFlush, finish]

theorem absorb_finish : (s.absorb finish input).finished = true := by
  cases hs : s.finished <;> simp [State.absorb, syncFlush, finish, hs]

theorem absorb_finished (hs : s.finished = true) :
    (s.absorb finish []).pending = s.pending := by
  simp [State.absorb, syncFlush, finish, hs]

/-- Every further call with `Z_FINISH` makes what is pending shorter. -/
theorem finishes_finished (hspace : 0 < space) (hs : s.finished = true) {accepted : ℤ → Bool}
    (hok : accepted 0 = true) : Finishes deflate accepted finish space 1 s [] := by
  have hdone := absorb_finish s []
  have hpending := absorb_finished s hs
  induction hn : s.pending.length using Nat.strong_induction_on generalizing s with
  | _ n ih =>
    by_cases hlast : (s.absorb finish []).pending.length ≤ space
    · exact .last (if_pos ⟨hdone, hlast⟩) rfl
    · have hret : (deflate s finish [] space).ret = 0 := if_neg fun h => hlast h.2
      refine .more (by rw [hret]; decide) (by rw [hret]; exact hok) ?_
      have hstate : (deflate s finish [] space).state.finished = true := hdone
      refine ih _ ?_ _ hstate (absorb_finish _ _) (absorb_finished _ hstate) rfl
      have hless : (deflate s finish [] space).state.pending.length =
          (s.absorb finish []).pending.length - space := List.length_drop
      rw [hless]
      rw [hpending] at hlast ⊢
      omega

theorem finishes (hspace : 0 < space) {accepted : ℤ → Bool} (hok : accepted 0 = true) :
    Finishes deflate accepted finish space 1 s input := by
  have hdone := absorb_finish s input
  by_cases hlast : (s.absorb finish input).pending.length ≤ space
  · exact .last (if_pos ⟨hdone, hlast⟩) rfl
  · have hret : (deflate s finish input space).ret = 0 := if_neg fun h => hlast h.2
    refine .more (by rw [hret]; decide) (by rw [hret]; exact hok) ?_
    have hnone : input.drop (deflate s finish input space).consumed = [] := List.drop_length
    rw [hnone]
    exact finishes_finished (deflate s finish input space).state hspace hdone hok

theorem deflate_lawful (hspace : 0 < space) {accepted : ℤ → Bool} (h0 : accepted 0 = true)
    (h1 : accepted 1 = true) :
    Lawful deflate accepted space noFlush finish 1 fun s => s.finished = false where
  consumed_le _ _ _ := le_rfl
  output_le _ _ _ := List.length_take_le _ _
  run_accepted s input _ _ := by
    rw [deflate]
    split_ifs <;> assumption
  run_running s input hs _ := (absorb_noFlush s input).trans hs
  progresses s input _ hsome := .now (List.length_pos_of_ne_nil hsome)
  finishes s input _ := finishes s input hspace h0

end Laws

end Zim.StoredBlocks
