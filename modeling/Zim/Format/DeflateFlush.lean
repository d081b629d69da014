import Zim.Format.CompressStream

/-! `DeflateStreamBuf::sync` (deflatestream.cpp), by which `operator<<` ends a cluster with
`zimcompZip` (cluster.cpp). -/
namespace Zim.DeflateStreamBuf
open Cxx Compressor StreamBuf

variable {σ : Type}

/-- `Z_SYNC_FLUSH`. -/
def syncFlush : ℤ := 2

section Sync
variable (z : Compressor σ UInt8) (sputn : Bytes → Bytes → ℕ)

/-- The loop of `sync()` with what is left of the input. The first component is false where it
returns -1. -/
def syncLoop : ℕ → Bytes → StreamBuf σ → Except StreamError (Bool × StreamBuf σ)
  | turns, next_in, s =>
    if next_in = [] then .ok (true, { s with obuffer := [] })
    else match turns with
      | 0 => .error .turns
      | turns + 1 =>
        let r := z s.stream syncFlush next_in zbufferSize
        if !library.accepted r.ret then .error (.library r.ret)
        else
          let (all, s) := s.send sputn r
          if !all then .ok (false, s) else syncLoop turns (next_in.drop r.consumed) s

def sync (turns : ℕ) (s : StreamBuf σ) : Except StreamError (Bool × StreamBuf σ) :=
  syncLoop z sputn turns s.obuffer s

end Sync

/-- What zlib documents of a `Z_SYNC_FLUSH`. Of the output for some input `owed` is the part from
which the input can be recovered; it is followed by an empty block, as a mark. `needs` tells how
much has to be put out before the last byte of the input is taken, and `pending` is what is left of
`owed` then. A call puts out what it has space for, and where it does not take all of the input, the
next call goes on with the rest. -/
structure Flushes (z : Compressor σ UInt8) (owed : σ → Bytes → Bytes) (needs : σ → Bytes → ℕ)
    (pending : σ → Bytes) : Prop where
  output {s : σ} {input : Bytes} {space : ℕ} (hsome : input ≠ [])
    (hok : library.accepted (z s syncFlush input space).ret = true) :
    (owed s input).take space <+: (z s syncFlush input space).output
  takes {s : σ} {input : Bytes} {space : ℕ} (hsome : input ≠ [])
    (hok : library.accepted (z s syncFlush input space).ret = true) :
    input.drop (z s syncFlush input space).consumed = [] ↔ needs s input ≤ space
  ends {s : σ} {input : Bytes} {space : ℕ} (hsome : input ≠ [])
    (hok : library.accepted (z s syncFlush input space).ret = true)
    (hall : input.drop (z s syncFlush input space).consumed = []) :
    pending (z s syncFlush input space).state = (owed s input).drop space
  resumes {s : σ} {input : Bytes} {space : ℕ} (hsome : input ≠ [])
    (hok : library.accepted (z s syncFlush input space).ret = true)
    (hmore : input.drop (z s syncFlush input space).consumed ≠ []) :
    owed (z s syncFlush input space).state (input.drop (z s syncFlush input space).consumed) =
        (owed s input).drop space ∧
      needs (z s syncFlush input space).state (input.drop (z s syncFlush input space).consumed) =
        needs s input - space

/-- All that was written can be recovered from what the sink has received: the compressor has taken
it and has put out all that it takes to recover it, and the sink has all of the output. -/
def Recoverable (pending : σ → Bytes) (s : StreamBuf (σ × List (Call UInt8))) (written : Bytes) :
    Prop :=
  Delivered s written ∧ pending s.stream.1 = []

/-- The space of the calls of `deflate` up to the one that takes the last byte, of which there is
one at least. -/
def offered (needs : ℕ) : ℕ := zbufferSize * ((needs - 1) / zbufferSize + 1)

theorem offered_of_le {needs : ℕ} (h : needs ≤ zbufferSize) : offered needs = zbufferSize := by
  rw [offered, Nat.div_eq_of_lt (by simp only [zbufferSize] at *; omega), Nat.zero_add,
    Nat.mul_one]

theorem offered_of_gt {needs : ℕ} (h : zbufferSize < needs) :
    offered needs = zbufferSize + offered (needs - zbufferSize) := by
  simp only [offered, zbufferSize] at *
  omega

section Loss
variable {z : Compressor σ UInt8} {sputn : Bytes → Bytes → ℕ} {lib : Library}
  {s s' : StreamBuf (σ × List (Call UInt8))} {written : Bytes}

/-- The sink has refused some of the output. -/
def Lost (s : StreamBuf (σ × List (Call UInt8))) : Prop :=
  s.sink.length < (given s.stream.2).length

/-- The sink has all of the output, and what was written is what the compressor took and some
characters behind it. -/
def Kept (s : StreamBuf (σ × List (Call UInt8))) (rest written : Bytes) : Prop :=
  s.sink = given s.stream.2 ∧ taken s.stream.2 ++ rest = written

/-- A call whose output the sink takes keeps everything, another one loses some output. -/
theorem send_keeps (z : Compressor σ UInt8) (sputn : Bytes → Bytes → ℕ)
    (s : StreamBuf (σ × List (Call UInt8))) (written : Bytes) (action : ℤ) (input : Bytes) :
    let r := z.logged s.stream action input zbufferSize
    (Lost s → Lost (s.send sputn r).2) ∧
      (Kept s input written → ((s.send sputn r).1 = true →
          Kept (s.send sputn r).2 (input.drop r.consumed) written) ∧
        ((s.send sputn r).1 = false → Lost (s.send sputn r).2)) := by
  simp only [StreamBuf.send, Lost, Kept, given_logged, taken_logged, List.length_append,
    List.length_take, Bool.not_eq_true', Bool.not_eq_false', decide_eq_false_iff_not,
    decide_eq_true_eq, not_lt]
  constructor
  · omega
  · rintro ⟨hsent, htaken⟩
    refine ⟨fun hall => ?_, fun hshort => ?_⟩
    · rw [List.take_of_length_le hall, ← hsent]
      exact ⟨rfl, htaken⟩
    · rw [← hsent]
      omega

/-- What becomes of the characters `chs` behind those that were written before. Where nothing is
lost, the last one is still in the buffer. -/
def Keeps (s s' : StreamBuf (σ × List (Call UInt8))) (written chs : Bytes) : Prop :=
  (Lost s → Lost s') ∧
    (Kept s s.obuffer written → Lost s' ∨ Kept s' s'.obuffer (written ++ chs) ∧
      (s'.obuffer ≠ [] ∨ chs = [] ∧ s' = s))

theorem Keeps.refl (s : StreamBuf (σ × List (Call UInt8))) (written : Bytes) :
    Keeps s s written [] :=
  ⟨id, fun hkept => .inr ⟨by rwa [List.append_nil], .inr ⟨rfl, rfl⟩⟩⟩

theorem Keeps.trans {s'' : StreamBuf (σ × List (Call UInt8))} {chs more : Bytes}
    (h : Keeps s s' written chs) (h' : Keeps s' s'' (written ++ chs) more) :
    Keeps s s'' written (chs ++ more) := by
  refine ⟨fun hlost => h'.1 (h.1 hlost), fun hkept => ?_⟩
  obtain hlost | ⟨hkept, hfirst⟩ := h.2 hkept
  · exact .inl (h'.1 hlost)
  rw [← List.append_assoc]
  refine (h'.2 hkept).imp_right (And.imp_right fun hsecond => ?_)
  obtain hsome | ⟨rfl, rfl⟩ := hsecond
  · exact .inl hsome
  · rwa [List.append_nil]

theorem sputcOr_keeps {put : StreamBuf (σ × List (Call UInt8)) → Option UInt8 →
    Except StreamError (Bool × StreamBuf (σ × List (Call UInt8)))} {ch : UInt8} {ok : Bool}
    (hput : put s (some ch) = .ok (ok, s') → Keeps s s' written [ch])
    (h : sputcOr put s ch = .ok (ok, s')) : Keeps s s' written [ch] := by
  rw [sputcOr] at h
  split_ifs at h with hroom
  · cases h
    refine ⟨id, fun hkept => .inr ⟨⟨hkept.1, ?_⟩, .inl ?_⟩⟩
    · rw [← hkept.2, List.append_assoc]
    · exact List.append_ne_nil_of_right_ne_nil _ (List.cons_ne_nil _ _)
  · exact hput h

/-- A character that is put into the buffer is kept, if the sink takes all. Where an `overflow`
inside of `overflow` is refused, the outer one does not tell. -/
theorem overflow_keeps {turns : ℕ} {ch : UInt8} {ok : Bool}
    (h : overflow lib z.logged sputn turns s (some ch) = .ok (ok, s')) :
    Keeps s s' written [ch] := by
  induction turns generalizing s ok s' with
  | zero => cases h
  | succ turns ih =>
    have hsent := send_keeps z sputn s written lib.run s.obuffer
    dsimp only at hsent
    simp only [overflow] at h
    generalize z.logged s.stream lib.run s.obuffer zbufferSize = r at h hsent
    generalize s.send sputn r = q at h hsent
    obtain ⟨all, sent⟩ := q
    obtain ⟨hlost, hkept⟩ := hsent
    split_ifs at h with haccept hall
    · cases all
      · cases h
        exact ⟨hlost, fun hs => .inl ((hkept hs).2 rfl)⟩
      · cases hall
    · cases all
      · cases hall rfl
      · split at h
        · cases h
        next ok' s'' hput =>
        cases h
        obtain ⟨hlost', hkept'⟩ := sputcOr_keeps (fun hput => ih hput) hput
        refine ⟨fun hs => hlost' (hlost hs), fun hs => (hkept' ((hkept hs).1 rfl)).imp_right ?_⟩
        exact And.imp_right fun hsome => hsome.imp_right fun hnone => absurd hnone.1 (by simp)

theorem write_keeps {turns : ℕ} {chs : Bytes}
    (h : write lib z.logged sputn turns s chs = .ok s') : Keeps s s' written chs := by
  induction chs generalizing s written with
  | nil =>
    cases h
    exact .refl _ _
  | cons ch chs ih =>
    simp only [write] at h
    split at h
    · cases h
    · cases h
    next hput =>
    have hch : Keeps s _ written [ch] := sputcOr_keeps (fun hput => overflow_keeps hput) hput
    exact hch.trans (ih h)

theorem writeAll_keeps {turns : ℕ} {writes : List Bytes}
    (h : writeAll lib z.logged sputn turns s writes = .ok s') :
    Keeps s s' written writes.flatten := by
  induction writes generalizing s written with
  | nil =>
    cases h
    exact .refl _ _
  | cons chs writes ih =>
    rw [writeAll, List.foldlM_cons, Fallible.bind_eq_ok] at h
    obtain ⟨s₁, hwrite, hrest⟩ := h
    exact (write_keeps hwrite).trans (ih hrest)

/-- The writes to a new stream: some output is lost, or all is kept and the last character is in
the buffer. -/
theorem writeAll_new {turns bufsize : ℕ} {init : σ} {writes : List Bytes}
    (h : writeAll lib z.logged sputn turns (new (init, []) bufsize) writes = .ok s) :
    Lost s ∨ Kept s s.obuffer writes.flatten ∧
      (s.obuffer ≠ [] ∨ writes.flatten = [] ∧ s.stream = (init, [])) := by
  have hkeeps : Keeps _ s [] writes.flatten := writeAll_keeps h
  refine (hkeeps.2 ⟨rfl, rfl⟩).imp_right (And.imp_right (Or.imp_right ?_))
  rintro ⟨hnone, rfl⟩
  exact ⟨hnone, rfl⟩

end Loss

section Flush
variable {z : Compressor σ UInt8} {sputn : Bytes → Bytes → ℕ} {turns : ℕ}
  {s s' : StreamBuf (σ × List (Call UInt8))} {input written : Bytes}

theorem syncLoop_nil {t t' : StreamBuf σ} (h : syncLoop z sputn turns [] t = .ok (true, t')) :
    t' = { t with obuffer := [] } := by
  cases turns <;>
  · rw [syncLoop, if_pos rfl] at h
    cases h
    rfl

/-- A loop that returns 0 has given all of the input to the compressor, which then owes what is
behind the space that the calls have offered. -/
theorem syncLoop_flushes {owed : σ → Bytes → Bytes} {needs : σ → Bytes → ℕ} {pending : σ → Bytes}
    (hz : Flushes z owed needs pending)
    (h : syncLoop z.logged sputn turns input s = .ok (true, s')) :
    (Lost s → Lost s') ∧ (Kept s input written → Kept s' [] written) ∧
      (input ≠ [] → pending s'.stream.1 =
        (owed s.stream.1 input).drop (offered (needs s.stream.1 input))) := by
  induction turns generalizing s input with
  | zero =>
    rw [syncLoop] at h
    split_ifs at h with hnone
    cases h
    subst hnone
    exact ⟨id, id, fun hsome => absurd rfl hsome⟩
  | succ turns ih =>
    rw [syncLoop] at h
    split_ifs at h with hnone
    · cases h
      subst hnone
      exact ⟨id, id, fun hsome => absurd rfl hsome⟩
    have hsent := send_keeps z sputn s written syncFlush input
    have hstream : (s.send sputn (z.logged s.stream syncFlush input zbufferSize)).2.stream =
      (z.logged s.stream syncFlush input zbufferSize).state := rfl
    dsimp only at hsent h
    generalize s.send sputn (z.logged s.stream syncFlush input zbufferSize) = q at h hsent hstream
    obtain ⟨all, sent⟩ := q
    obtain ⟨hlost, hkept⟩ := hsent
    split_ifs at h with haccept hall
    · cases h
    cases all
    · cases hall rfl
    have hok : library.accepted (z s.stream.1 syncFlush input zbufferSize).ret = true := by
      have hret : library.accepted (z.logged s.stream syncFlush input zbufferSize).ret = true := by
        simpa using haccept
      exact hret
    have hstate : sent.stream.1 = (z s.stream.1 syncFlush input zbufferSize).state :=
      congrArg Prod.fst hstream
    obtain ⟨hlost', hkept', howes⟩ := ih h
    refine ⟨fun hs => hlost' (hlost hs), fun hs => hkept' ((hkept hs).1 rfl), fun _ => ?_⟩
    by_cases hrest : input.drop (z s.stream.1 syncFlush input zbufferSize).consumed = []
    · have hend : input.drop (z.logged s.stream syncFlush input zbufferSize).consumed = [] := hrest
      rw [hend] at h
      have hneeds := (hz.takes hnone hok).mp hrest
      rw [syncLoop_nil h, offered_of_le hneeds, ← hz.ends hnone hok hrest, ← hstate]
    · have hneeds := not_le.mp ((hz.takes hnone hok).not.mp hrest)
      obtain ⟨howed, hless⟩ := hz.resumes hnone hok hrest
      rw [howes hrest, hstate]
      simp only [logged]
      rw [howed, hless, List.drop_drop, ← offered_of_gt hneeds]

end Flush

section Stored

theorem write_room {lib : Library} {z : Compressor σ UInt8} {sputn : Bytes → Bytes → ℕ}
    {turns : ℕ} {s : StreamBuf σ} {chs : Bytes}
    (hroom : s.obuffer.length + chs.length ≤ s.bufsize) :
    write lib z sputn turns s chs = .ok { s with obuffer := s.obuffer ++ chs } := by
  induction chs generalizing s with
  | nil => rw [write, List.append_nil]
  | cons ch chs ih =>
    rw [List.length_cons] at hroom
    simp only [write, sputc, sputcOr, if_pos (show s.obuffer.length < s.bufsize by omega)]
    rw [ih, List.append_assoc, List.singleton_append]
    simp only [List.length_append, List.length_singleton]
    omega

/-- The states behind a write and behind the flush of it, with the text in stored blocks. -/
def stored (bs : Bytes) : StreamBuf (StoredBlocks.State × List (Call UInt8)) :=
  ⟨(StoredBlocks.init, []), 8192, bs, []⟩

def flushed (bs : Bytes) : StreamBuf (StoredBlocks.State × List (Call UInt8)) :=
  let r := StoredBlocks.deflate.logged (StoredBlocks.init, []) syncFlush bs 8192
  ⟨r.state, 8192, [], r.output⟩

variable {bs : Bytes}

theorem writeAll_stored (hlen : bs.length ≤ 8192) :
    writeAll library StoredBlocks.deflate.logged takesAll 1 (new (StoredBlocks.init, []) 8192)
      [bs] = .ok (stored bs) := by
  have hwrite : write library StoredBlocks.deflate.logged takesAll 1
      (new (StoredBlocks.init, []) 8192) bs = .ok (stored bs) := write_room (by simpa [new])
  rw [writeAll, List.foldlM_cons, hwrite]
  rfl

theorem sync_stored (hsome : bs ≠ []) :
    sync StoredBlocks.deflate.logged takesAll 1 (stored bs) = .ok (true, flushed bs) := by
  have hret : (StoredBlocks.deflate.logged (StoredBlocks.init, []) syncFlush bs zbufferSize).ret =
      0 := by
    simp only [logged, StoredBlocks.deflate]
    exact if_neg fun h => Bool.false_ne_true h.1
  have hend : bs.drop (StoredBlocks.deflate.logged (StoredBlocks.init, []) syncFlush bs
      zbufferSize).consumed = [] := List.drop_length
  simp only [sync, stored, syncLoop, if_neg hsome, send_takesAll, hret, hend, if_true]
  rfl

end Stored

section Flush
variable {z : Compressor σ UInt8} {sputn : Bytes → Bytes → ℕ} {turns : ℕ}
  {s s' : StreamBuf (σ × List (Call UInt8))}

end Flush

/-- Bytes without anything that zlib could make use of. -/
def noise : ℕ → UInt32 → Bytes
  | 0, _ => []
  | n + 1, seed =>
    let next := seed * 1664525 + 1013904223
    (next >>> 24).toUInt8 :: noise n next

@[simp] theorem noise_length (n : ℕ) (seed : UInt32) : (noise n seed).length = n := by
  induction n generalizing seed with
  | zero => rfl
  | succ n ih => simp [noise, ih]

theorem stored_flushes : Flushes StoredBlocks.deflate StoredBlocks.State.owed (fun _ _ => 0)
    StoredBlocks.State.owes where
  output {s input space} _ _ := by
    refine ⟨StoredBlocks.mark.take (space - (s.owed input).length), ?_⟩
    rw [← List.take_append]
    rfl
  takes _ _ := iff_of_true List.drop_length (Nat.zero_le _)
  ends {s input space} _ _ _ := StoredBlocks.owes_absorb s input space
  resumes _ _ hmore := absurd List.drop_length hmore

end Zim.DeflateStreamBuf
