import Zim.Lib.Streams

/-! A `std::fstream` opened for reading and writing, and files made of blocks of one size. -/
namespace Cxx

/-- The bytes of a file after `bs` were written from position `off` on. A gap behind the old
end is filled with zeros. -/
def overwrite (content : Bytes) (off : ℕ) (bs : Bytes) : Bytes :=
  (content.take off).rightpad off 0 ++ bs ++ content.drop (off + bs.length)

theorem overwrite_append (front old back bs : Bytes) (h : bs.length ≤ old.length) :
    overwrite (front ++ old ++ back) front.length bs =
      front ++ (bs ++ old.drop bs.length) ++ back := by
  have hpad : ((front ++ old ++ back).take front.length).rightpad front.length 0 = front := by
    simp [List.rightpad]
  have hdrop : (front ++ old ++ back).drop (front.length + bs.length) =
      old.drop bs.length ++ back := by
    rw [List.append_assoc, List.drop_append, List.drop_eq_nil_of_le (by omega),
      Nat.add_sub_cancel_left, List.drop_append_of_le_length h, List.nil_append]
  rw [overwrite, hpad, hdrop]
  simp only [List.append_assoc]

theorem overwrite_end (content bs : Bytes) :
    overwrite content content.length bs = content ++ bs := by
  simp [overwrite, List.rightpad]

theorem overwrite_length {content : Bytes} {off : ℕ} {bs : Bytes}
    (h : off + bs.length ≤ content.length) :
    (overwrite content off bs).length = content.length := by
  simp only [overwrite, List.rightpad, List.length_append, List.length_take,
    List.length_replicate, List.length_drop]
  omega

/-- A file with its position and the failure flag of the stream. -/
structure Fstream where
  content : Bytes
  pos : ℕ
  fail : Bool
  deriving DecidableEq, Repr

namespace Fstream

def seek (f : Fstream) (off : ℕ) : Fstream :=
  if f.fail then f else { f with pos := off }

/-- `f.read(buf, n)`, with the bytes stored into the buffer. -/
def read (f : Fstream) (n : ℕ) : Bytes × Fstream :=
  if f.fail then ([], f)
  else
    let bs := (f.content.drop f.pos).take n
    (bs, { f with pos := f.pos + bs.length, fail := bs.length < n })

/-- `f.write(buf, n)`. -/
def write (f : Fstream) (bs : Bytes) : Fstream :=
  if f.fail then f
  else if maxOffset < f.pos + bs.length then { f with fail := true }
  else { f with content := overwrite f.content f.pos bs, pos := f.pos + bs.length }

end Fstream

section Blocks
variable {α : Type} {n : ℕ} {blocks : List (List α)} (hn : ∀ b ∈ blocks, b.length = n)
include hn

theorem blocks_length : blocks.flatten.length = blocks.length * n := by
  have hlengths : blocks.map List.length = List.replicate blocks.length n := by
    rw [← List.map_const']
    exact List.map_congr_left hn
  rw [List.length_flatten, hlengths, List.sum_replicate_nat]

/-- A block in its file. -/
theorem blocks_split {i : ℕ} {b : List α} (hi : blocks[i]? = some b) :
    ∃ front back, blocks.flatten = front ++ b ++ back ∧ front.length = i * n ∧
      ∀ b' : List α, (blocks.set i b').flatten = front ++ b' ++ back := by
  obtain ⟨hlt, rfl⟩ := List.getElem?_eq_some_iff.mp hi
  refine ⟨(blocks.take i).flatten, (blocks.drop (i + 1)).flatten, ?_, ?_, ?_⟩
  · rw [List.append_assoc, ← List.flatten_cons, ← List.drop_eq_getElem_cons hlt,
      ← List.flatten_append, List.take_append_drop]
  · rw [blocks_length fun b hb => hn b (List.mem_of_mem_take hb), List.length_take_of_le hlt.le]
  · intro b'
    rw [List.set_eq_take_append_cons_drop, if_pos hlt]
    simp

theorem blocks_slice {i : ℕ} {b : List α} (hi : blocks[i]? = some b) :
    (blocks.flatten.drop (i * n)).take n = b := by
  obtain ⟨front, back, hflat, hfront, -⟩ := blocks_split hn hi
  have hb : b.length = n := hn b (List.mem_of_getElem? hi)
  rw [hflat, List.append_assoc, ← hfront, List.drop_left, ← hb, List.take_left]

end Blocks

/-- Writing the front of a block changes this block and no other. -/
theorem overwrite_block {n i : ℕ} {blocks : List Bytes} (hn : ∀ b ∈ blocks, b.length = n)
    {b : Bytes} (hi : blocks[i]? = some b) {bs : Bytes} (hbs : bs.length ≤ n) :
    overwrite blocks.flatten (i * n) bs = (blocks.set i (bs ++ b.drop bs.length)).flatten := by
  obtain ⟨front, back, hflat, hfront, hset⟩ := blocks_split hn hi
  have hb : b.length = n := hn b (List.mem_of_getElem? hi)
  rw [hflat, ← hfront, overwrite_append _ _ _ _ (by omega), hset]

end Cxx
