import Mathlib.Algebra.Group.Nat.Even
import Zim.Format.Cluster
import Zim.Index.IndexArticle

/-! Which parameters let `IndexArticle::readEntriesZ` leave the data of its article. -/
namespace Zim.Index
open Cxx

/-- The integers at the front of a stream, up to the first one that cannot be read. Every one
takes a byte, so that more turns than bytes are never needed. -/
def integers : ℕ → IStream → List UInt32
  | 0, _ => []
  | turns + 1, s =>
    let (v, s) := ZInt.get s
    if s.fail then [] else v :: integers turns s

/-- The bytes of a category do not end between an index and its position. -/
def Whole (ns : UInt8) (bs : Bytes) : Prop :=
  ns = nsX → Even (integers (bs.length + 1) (.ofBytes bs)).length

/-- The lengths that are stored for the flagged categories, up to the first one whose integers
cannot be read. -/
def categoryLengths (ns : UInt8) : List (Fin 4) → UInt32 → IStream → List UInt32
  | [], _, _ => []
  | _ :: cs, flagfield, extra =>
    if flagfield &&& 1 ≠ 0 then
      let (len, extra) := ZInt.get extra
      let (_, extra) := ZInt.get extra
      let (_, extra) := if ns = nsX then ZInt.get extra else (0, extra)
      if extra.fail then [] else len :: categoryLengths ns cs (flagfield >>> 1) extra
    else categoryLengths ns cs (flagfield >>> 1) extra

def storedLengths (ns : UInt8) (parameter : Bytes) : List UInt32 :=
  let (flagfield, extra) := ZInt.get (.ofBytes parameter)
  categoryLengths ns categories flagfield extra

/-- Each length from `offset` on is inside of the blob, up to the first category that ends with a
part of an entry. -/
def LengthsInside (ns : UInt8) (blob : Bytes) : ℕ → List UInt32 → Prop
  | _, [] => True
  | offset, len :: lens => offset + len.toNat ≤ blob.length ∧
    (Whole ns ((blob.drop offset).take len.toNat) →
      LengthsInside ns blob (offset + len.toNat) lens)

section Loop
variable {ns : UInt8} {noOffset : Bool}

/-- The loop throws exactly where an index has no position. -/
theorem readEntriesLoop_cases (turns n : ℕ) (off pos : UInt32) (s : IStream)
    (ht : s.rest.length < turns) (hn : s.rest.length < n) :
    (ns = nsX → Even (integers n s).length) ∧
        (∃ es, readEntriesLoop ns noOffset turns off pos s = .ok es) ∨
      ¬ (ns = nsX → Even (integers n s).length) ∧
        readEntriesLoop ns noOffset turns off pos s = .error .invalidIndexEntry := by
  induction turns generalizing n off pos s with
  | zero => omega
  | succ turns ih =>
    obtain ⟨n, rfl⟩ : ∃ m, n = m + 1 := ⟨n - 1, by omega⟩
    simp only [readEntriesLoop, integers]
    cases hfail : (ZInt.get s).2.fail with
    | true => exact .inl ⟨fun _ => Even.zero, _, rfl⟩
    | false =>
      have hless := ZInt.get_consumes hfail
      simp only [Bool.false_eq_true, if_false]
      by_cases hx : ns = nsX
      · obtain ⟨n, rfl⟩ : ∃ m, n = m + 1 := ⟨n - 1, by omega⟩
        simp only [if_pos hx, integers]
        cases hfail' : (ZInt.get (ZInt.get s).2).2.fail with
        | true =>
          refine .inr ⟨fun heven => ?_, rfl⟩
          have hone := heven hx
          simp at hone
        | false =>
          have hless' := ZInt.get_consumes hfail'
          simp only [Bool.false_eq_true, if_false, List.length_cons]
          have heven (k : ℕ) : Even (k + 1 + 1) ↔ Even k := by
            rw [Nat.even_add_one, Nat.even_add_one, not_not]
          rw [heven]
          obtain ⟨hok, es, hes⟩ | ⟨hno, herr⟩ :=
            ih n (if noOffset then off else off + (ZInt.get s).1)
              (pos + (ZInt.get (ZInt.get s).2).1) (ZInt.get (ZInt.get s).2).2 (by omega) (by omega)
          · exact .inl ⟨hok, _, by rw [hes]⟩
          · exact .inr ⟨hno, by rw [herr]⟩
      · simp only [if_neg hx]
        obtain ⟨-, es, hes⟩ | ⟨hno, -⟩ :=
          ih n (if noOffset then off else off + (ZInt.get s).1) pos (ZInt.get s).2
            (by omega) (by omega)
        · exact .inl ⟨fun h => absurd h hx, _, by rw [hes]⟩
        · exact absurd (fun h => absurd h hx) hno

/-- The loop over the bytes of one category. -/
theorem readEntriesLoop_whole (bs : Bytes) (turns : ℕ) (pos : UInt32) (ht : bs.length < turns) :
    Whole ns bs ∧ (∃ es, readEntriesLoop ns noOffset turns 0 pos (.ofBytes bs) = .ok es) ∨
      ¬ Whole ns bs ∧
        readEntriesLoop ns noOffset turns 0 pos (.ofBytes bs) = .error .invalidIndexEntry :=
  readEntriesLoop_cases turns (bs.length + 1) 0 pos (.ofBytes bs) ht (Nat.lt_succ_self _)

end Loop

section Categories
variable {ns : UInt8} {noOffset : Bool} {blob : Bytes}

/-- The categories are read inside of the blob exactly where the stored lengths stay inside. -/
theorem readCategories_inside_iff (cs : List (Fin 4)) (flagfield offset : UInt32)
    (extra : IStream) (entries : Categories) (hsize : blob.length < 2 ^ 32) :
    readCategories ns noOffset blob cs flagfield offset extra entries ≠ .error .outOfRange ↔
      LengthsInside ns blob offset.toNat (categoryLengths ns cs flagfield extra) := by
  induction cs generalizing flagfield offset extra entries with
  | nil => simp [readCategories, categoryLengths, LengthsInside]
  | cons c cs ih =>
    rw [readCategories, categoryLengths]
    by_cases hflag : flagfield &&& 1 ≠ 0
    · rw [if_pos hflag, if_pos hflag]
      generalize ZInt.get extra = g1
      obtain ⟨len, extra1⟩ := g1
      dsimp only
      generalize (if ns = nsX then ZInt.get (ZInt.get extra1).2 else (0, (ZInt.get extra1).2)) = g2
      obtain ⟨pos, extra2⟩ := g2
      dsimp only
      cases extra2.fail with
      | true => simp [LengthsInside]
      | false =>
        simp only [Bool.false_eq_true, if_false, LengthsInside]
        by_cases hout : blob.length < offset.toNat + len.toNat
        · rw [if_pos hout]
          exact iff_of_false (fun h => h rfl) (fun h => by omega)
        · have hlen : ((blob.drop offset.toNat).take len.toNat).length < len.toNat + 1 :=
            Nat.lt_succ_of_le (List.length_take_le _ _)
          have hsum : (offset + len).toNat = offset.toNat + len.toNat := by
            rw [UInt32.toNat_add]
            exact Nat.mod_eq_of_lt (by omega)
          rw [if_neg hout, ← hsum]
          obtain ⟨hwhole, es, hes⟩ | ⟨hpart, herr⟩ :=
            @readEntriesLoop_whole ns noOffset _ _ pos hlen
          · rw [hes]
            simp only [ih]
            exact ⟨fun h => ⟨by omega, fun _ => h⟩, fun h => h.2 hwhole⟩
          · rw [herr]
            refine iff_of_true (fun h => ?_) ⟨by omega, fun h => absurd h hpart⟩
            cases h
    · rw [if_neg hflag, if_neg hflag]
      exact ih _ _ _ _

end Categories

/-- No check against the size of the blob stands before a category is read: `readEntriesZ` leaves
its blob exactly where a stored length does. -/
theorem readEntriesZ_inside_iff (ns : UInt8) (noOffset : Bool) (parameter : Bytes)
    (blob : Blob) :
    readEntriesZ ns noOffset parameter blob.val ≠ .error .outOfRange ↔
      LengthsInside ns blob.val 0 (storedLengths ns parameter) :=
  readCategories_inside_iff categories _ 0 _ _ blob.property

/-- One category of five bytes in an empty blob. -/
theorem readEntriesZ_leaves_blob :
    readEntriesZ nsX false [1, 5, 0, 0] [] = .error .outOfRange := by
  decide

end Zim.Index
