import Zim.Lzma.DecoderRuns

/-! The LZ decoder (lz/lz_decoder.c of liblzma): it gives the LZ-based decoder the room that there
is and copies what was decoded out of the dictionary. -/
namespace Lzma
open Cxx Lz77

/-- `lzma_coder` of lz_decoder.c, the last one of its chain, over an LZ-based decoder. -/
structure LzDecoder (σ : Type) where
  dict : Dict
  coder : σ

namespace LzDecoder
variable {σ : Type}

def lzDecoderReset (dict : Dict) : Dict :=
  { dict with pos := 0, full := 0, buf := dict.buf.set (dict.size - 1) 0, needReset := false }

/-- `decode_buffer`, with at most the given number of turns: what is returned, the input that is
left over and what was written to the output, which has room for `room` bytes. -/
def decodeBuffer (code : σ → Dict → Bytes → Option (Ret × σ × Dict × Bytes)) :
    ℕ → LzDecoder σ → Bytes → ℕ → Option (Ret × LzDecoder σ × Bytes × Bytes)
  | 0, _, _, _ => none
  | turns + 1, lz, input, room =>
    let dict := if lz.dict.pos = lz.dict.size then { lz.dict with pos := 0 } else lz.dict
    let dictStart := dict.pos
    let dict := { dict with limit := dict.pos + min room (dict.size - dict.pos) }
    match code lz.coder dict input with
    | none => none
    | some (ret, coder, dict, input) =>
      let copySize := dict.pos - dictStart
      let out := (dict.buf.drop dictStart).take copySize
      let room := room - copySize
      let reset := dict.needReset
      let dict := if reset then lzDecoderReset dict else dict
      if ret ≠ .ok ∨ room = 0 ∨ (reset = false ∧ dict.pos < dict.size) then
        some (ret, ⟨dict, coder⟩, input, out)
      else
        (decodeBuffer code turns ⟨dict, coder⟩ input room).map fun (ret, lz, input, more) =>
          (ret, lz, input, out ++ more)

/-- The size of the dictionary that `lzma_lz_decoder_init` allocates. -/
def allocated (dictSize : UInt32) : ℕ := (max dictSize.toNat 4096 + 15) / 16 * 16

/-- `lzma_lz_decoder_init` without a preset dictionary, with the memory that was allocated. -/
def init (memory : Bytes) (coder : σ) : LzDecoder σ :=
  ⟨lzDecoderReset ⟨memory, 0, 0, 0, memory.length, false⟩, coder⟩

/-- Calls, each with its input and the room for its output, up to the first one that does not return
`LZMA_OK`: what that one returns, and the output of each. -/
def run (code : σ → Dict → Bytes → Option (Ret × σ × Dict × Bytes)) (turns : ℕ) :
    LzDecoder σ → List (Bytes × ℕ) → Option (Ret × LzDecoder σ × List Bytes)
  | lz, [] => some (.ok, lz, [])
  | lz, (input, room) :: calls =>
    match decodeBuffer code turns lz input room with
    | none => none
    | some (ret, lz, _, out) =>
      if ret = .ok then (run code turns lz calls).map fun (ret, lz, outs) => (ret, lz, out :: outs)
      else some (ret, lz, [out])

end LzDecoder

variable {dict dict' : Dict} {h xs : Bytes}

/-- The bytes behind the old position are those that the history grew by. -/
theorem Dict.Grows.copied (hg : dict.Grows h dict' xs) :
    (dict'.buf.drop dict.pos).take (dict'.pos - dict.pos) = xs := by
  rw [hg.pos, Nat.add_sub_cancel_left]
  obtain rfl | hne := List.eq_nil_or_concat xs
  · rfl
  · have hpos : 0 < xs.length := by
      obtain ⟨front, last, rfl⟩ := hne
      simp
    have hkeeps := hg.holds.keeps
    have hle := hkeeps.pos_le
    rw [hg.pos] at hkeeps hle
    have hslot : slot dict'.buf.length (dict.pos + xs.length) (xs.length - 1) = dict.pos := by
      rw [slot, if_pos (by omega)]
      omega
    have hpiece := hkeeps.piece (n := xs.length) (d := xs.length - 1)
      (by rw [List.length_append]; omega) (by omega) (by omega) (by rw [hslot]; exact hle)
    rw [hslot, List.length_append] at hpiece
    rw [hpiece, show h.length + xs.length - 1 - (xs.length - 1) = h.length by omega,
      List.drop_left, List.take_length]

theorem holds_wrap (hh : dict.Holds h) :
    ∃ dict₀, (if dict.pos = dict.size then { dict with pos := 0 } else dict) = dict₀ ∧
      dict₀.Holds h ∧ dict₀.pos < dict₀.size ∧ dict₀.size = dict.size ∧
      dict₀.full = dict.full ∧ dict₀.needReset = dict.needReset := by
  refine ⟨_, rfl, ?_⟩
  split_ifs with hend
  · have hkeeps := hh.keeps
    rw [hend, ← hh.size_eq] at hkeeps
    exact ⟨⟨hh.size_eq, hh.size_pos, hkeeps.wrap, hh.full_eq, Nat.zero_le _, hh.limit_le, hh.last⟩,
      hh.size_pos, rfl, rfl, rfl⟩
  · have hpos := hh.pos_le
    have hlimit := hh.limit_le
    exact ⟨hh, by omega, rfl, rfl, rfl⟩

namespace LzDecoder

/-- Between two calls: the dictionary holds all output, and the decoder meets its invariant. -/
structure Ready (lz : LzDecoder LzmaDecoder) (h : Bytes) : Prop where
  holds : lz.dict.Holds h
  needReset : lz.dict.needReset = false
  inv : lz.coder.Inv lz.dict.full

/-- A call returns, and hands out exactly what was decoded. -/
theorem decodeBuffer_sound {lz : LzDecoder LzmaDecoder} {h input : Bytes} {turns n room : ℕ}
    (hready : lz.Ready h) (hn : 2 * ((input.length + 1) * 2 ^ 32) ≤ n) (hroom : room < turns) :
    ∃ ret lz' rest out,
      decodeBuffer (LzmaDecoder.lzmaDecode n) turns lz input room = some (ret, lz', rest, out) ∧
      out.length ≤ room ∧ lz'.dict.Holds (h ++ out) ∧ (ret = .ok → lz'.Ready (h ++ out)) := by
  induction turns generalizing lz h input room with
  | zero => exact absurd hroom (Nat.not_lt_zero _)
  | succ turns ih =>
    obtain ⟨dict₀, hwrap, hholds, hlt, hsize, hfull, hreset⟩ := holds_wrap hready.holds
    have hlimited := LzmaDecoder.holds_withLimit
      (dict₀.pos + min room (dict₀.size - dict₀.pos)) hholds (by omega) (by omega)
    have hinv : lz.coder.Inv dict₀.full := hfull ▸ hready.inv
    obtain ⟨ret, coder', dict', input', xs, hcode, hgrows, hle, hok⟩ :=
      LzmaDecoder.lzmaDecode_sound lz.coder
        { dict₀ with limit := dict₀.pos + min room (dict₀.size - dict₀.pos) } hinv hlimited hn
    have hcopied := hgrows.copied
    have hpos := hgrows.pos
    have hfit := hgrows.holds.pos_le
    rw [hgrows.limit] at hfit
    have hfalse : dict'.needReset = false :=
      hgrows.needReset.trans (hreset.trans hready.needReset)
    dsimp only at hcopied hpos hfit
    have hnext : ret = .ok → (⟨dict', coder'⟩ : LzDecoder LzmaDecoder).Ready (h ++ xs) :=
      fun hret => ⟨hgrows.holds, hfalse, hok hret⟩
    rw [decodeBuffer, hwrap]
    dsimp only
    rw [hcode]
    dsimp only
    rw [hcopied, hfalse]
    simp only [Bool.false_eq_true, if_false, true_and]
    split_ifs with hend
    · exact ⟨ret, _, input', xs, rfl, by omega, hgrows.holds, hnext⟩
    · obtain ⟨hret, hleft, hwrapped⟩ : ret = .ok ∧ room - (dict'.pos - dict₀.pos) ≠ 0 ∧
          ¬ dict'.pos < dict'.size := by
        refine ⟨?_, ?_, ?_⟩ <;> by_contra hnot <;> apply hend
        · exact .inl hnot
        · exact .inr (.inl hnot)
        · exact .inr (.inr hnot)
      have hsize' : dict'.size = dict₀.size := hgrows.size
      have hn' : 2 * ((input'.length + 1) * 2 ^ 32) ≤ n :=
        (Nat.mul_le_mul_left 2 (Nat.mul_le_mul_right _ (Nat.succ_le_succ hle))).trans hn
      obtain ⟨ret', lz', rest, out, hrun, hlen, hholds', hready'⟩ :=
        ih (hnext hret) hn' (show room - (dict'.pos - dict₀.pos) < turns by omega)
      rw [hrun]
      refine ⟨ret', lz', rest, xs ++ out, rfl, ?_, ?_, ?_⟩
      · rw [List.length_append]
        omega
      · rw [← List.append_assoc]
        exact hholds'
      · rw [← List.append_assoc]
        exact hready'

theorem mask_toNat : ∀ k < 5, ((1 : UInt32) <<< UInt32.ofNat k - 1).toNat + 1 = 2 ^ k := by
  decide

theorem isLclppbValid_iff {options : Options} : options.isLclppbValid = true ↔
    options.lc.toNat + options.lp.toNat ≤ 4 ∧ options.pb.toNat ≤ 4 := by
  have hlclp : lclpMax.toNat = 4 := rfl
  have hpb : pbMax.toNat = 4 := rfl
  unfold Options.isLclppbValid
  simp only [Bool.and_eq_true, decide_eq_true_eq, UInt32.le_iff_toNat_le, hlclp, hpb,
    UInt32.toNat_add]
  omega

/-- A decoder that was reset meets its invariant. -/
theorem lzmaDecoderReset_inv {options : Options} (hvalid : options.isLclppbValid = true)
    (coder : LzmaDecoder) (full : ℕ) : (coder.lzmaDecoderReset options).Inv full := by
  obtain ⟨hlclp, hpb⟩ := isLclppbValid_iff.mp hvalid
  have hposMask := mask_toNat options.pb.toNat (by omega)
  have hliteral := mask_toNat options.lp.toNat (by omega)
  rw [UInt32.ofNat_toNat] at hposMask hliteral
  have hpow : 2 ^ options.pb.toNat ≤ 2 ^ 4 := Nat.pow_le_pow_right (by decide) hpb
  refine ⟨⟨?_, _, _, hlclp, rfl, hliteral⟩, ⟨.inl rfl, .inl rfl, .inl rfl, .inl rfl, ?_⟩, ?_, ?_⟩
  · show ((1 : UInt32) <<< options.pb - 1).toNat < 16
    omega
  · intro hstate
    cases hstate
  · show 2 ^ 16 ≤ (0xFFFFFFFF : UInt32).toNat
    decide
  · exact fun _ => balanced_bitReset

/-- The memory of the dictionary can hold anything. -/
theorem init_holds {memory : Bytes} (hmemory : 0 < memory.length) (coder : LzmaDecoder) :
    (init memory coder).dict.Holds [] := by
  have hlast : (memory.set (memory.length - 1) 0)[memory.length - 1]? = some 0 := by
    rw [List.getElem?_set_self]
    omega
  refine ⟨?_, hmemory, Keeps.nil, ?_, le_rfl, Nat.zero_le _, fun _ => hlast⟩
  · exact List.length_set
  · exact (Nat.zero_min _).symm

/-- Calls return one after another, up to the end of the stream or an error. -/
theorem run_ready {lz : LzDecoder LzmaDecoder} {h : Bytes} {calls : List (Bytes × ℕ)} {n : ℕ}
    (hready : lz.Ready h)
    (hcalls : ∀ call ∈ calls, 2 * ((call.1.length + 1) * 2 ^ 32) ≤ n ∧ call.2 < n) :
    ∃ ret lz' outs, run (LzmaDecoder.lzmaDecode n) n lz calls = some (ret, lz', outs) ∧
      List.Forall₂ (fun out call => out.length ≤ call.2) outs (calls.take outs.length) ∧
      lz'.dict.Holds (h ++ outs.flatten) ∧ (ret = .ok → lz'.Ready (h ++ outs.flatten)) := by
  induction calls generalizing lz h with
  | nil =>
    refine ⟨.ok, lz, [], rfl, .nil, ?_, fun _ => ?_⟩
    · rw [List.flatten_nil, List.append_nil]
      exact hready.holds
    · rw [List.flatten_nil, List.append_nil]
      exact hready
  | cons call calls ih =>
    obtain ⟨input, room⟩ := call
    obtain ⟨hinput, hroom⟩ := hcalls _ List.mem_cons_self
    obtain ⟨ret, lz', rest, out, hcall, hlen, hholds, hok⟩ :=
      decodeBuffer_sound hready hinput hroom
    rw [run, hcall]
    dsimp only
    split_ifs with hret
    · obtain ⟨ret', lz'', outs, hrun, hfits, hholds', hok'⟩ :=
        ih (hok hret) fun call hmem => hcalls call (List.mem_cons_of_mem _ hmem)
      rw [hrun]
      refine ⟨ret', lz'', out :: outs, rfl, .cons hlen hfits, ?_, ?_⟩
      · rw [List.flatten_cons, ← List.append_assoc]
        exact hholds'
      · rw [List.flatten_cons, ← List.append_assoc]
        exact hok'
    · refine ⟨ret, lz', [out], rfl, .cons hlen .nil, ?_, fun h => absurd h hret⟩
      rw [List.flatten_singleton]
      exact hholds

end LzDecoder

end Lzma
