import Mathlib.Data.List.Induction
import Zim.Lib.Fallible
import Zim.Reader.Open

/-! Sequences of calls on one `FileImpl`, some of which fail. -/
namespace Zim
open Cxx Stateful
namespace FileImpl
variable {build : Build} {a : Archive}

inductive Call where
  | getDirent (idx : UInt32)
  | getIndexByTitle (idx : UInt32)
  | getDirentByTitle (idx : UInt32)
  | getCluster (idx : UInt32)
  | getChecksum
  deriving DecidableEq

inductive Value where
  | dirent (d : Dirent)
  | index (idx : UInt32)
  | cluster (c : Cluster)
  | checksum (str : Bytes)
  deriving DecidableEq

namespace Call

def run (build : Build) : Call → M Value
  | getDirent idx => Value.dirent <$> FileImpl.getDirent build idx
  | getIndexByTitle idx => Value.index <$> FileImpl.getIndexByTitle build idx
  | getDirentByTitle idx => Value.dirent <$> FileImpl.getDirentByTitle build idx
  | getCluster idx => Value.cluster <$> FileImpl.getCluster build idx
  | getChecksum => Value.checksum <$> FileImpl.getChecksum

/-- The object after a sequence of calls, whose exceptions the caller has handled. -/
def after (build : Build) (calls : List Call) (f : FileImpl) : FileImpl :=
  calls.foldl (fun f c => state (c.run build f)) f

theorem after_concat (calls : List Call) (c : Call) (f : FileImpl) :
    after build (calls ++ [c]) f = state (c.run build (after build calls f)) := by
  rw [after, List.foldl_append, List.foldl_cons, List.foldl_nil, after]

/-- The outcome of a call as a function of the archive. -/
def answer (build : Build) (a : Archive) : Call → Except ZimError Value
  | getDirent idx => Value.dirent <$> a.dirent build idx
  | getIndexByTitle idx => Value.index <$> a.indexByTitle build idx
  | getDirentByTitle idx => Value.dirent <$> a.direntByTitle build idx
  | getCluster idx => Value.cluster <$> a.cluster build idx
  | getChecksum => Value.checksum <$> a.checksum

/-- Whether a call with this outcome has lost a read from the stream: it throws for that reason, or
it is `getChecksum` and returns an empty string for an archive with a checksum. -/
def lost (header : Fileheader) (c : Call) (r : Except ZimError Value) : Bool :=
  readFailure r || c = .getChecksum && header.hasChecksum && r = .ok (.checksum [])

end Call

theorem readFailure_map {α β : Type} (g : α → β) (r : Except ZimError α) :
    readFailure (g <$> r) = readFailure r := by
  cases r with
  | ok v => rfl
  | error e => cases e <;> rfl

theorem map_runs {α : Type} {x : M α} {r : Except ZimError α} (g : α → Value)
    (h : Runs (Serves build a false) x r (Serves build a (readFailure r))) :
    Runs (Serves build a false) (g <$> x) (g <$> r) (Serves build a (readFailure (g <$> r))) := by
  rw [readFailure_map]
  exact h.map g

theorem readFailure_checksum : readFailure a.checksum = false := by
  unfold Archive.checksum
  split
  · cases hseek : a.seek a.header.getChecksumPos with
    | error e => exact readFailure_seek hseek
    | ok s => rfl
  · rfl

/-- A call on an object without failure has the outcome that the archive determines. -/
theorem run_runs (c : Call) : Runs (Serves build a false) (c.run build) (c.answer build a)
    (Serves build a (c.lost a.header (c.answer build a))) := by
  cases c with
  | getDirent idx =>
    simpa [Call.lost, Call.run, Call.answer] using map_runs Value.dirent getDirent_runs
  | getIndexByTitle idx =>
    simpa [Call.lost, Call.run, Call.answer] using map_runs Value.index getIndexByTitle_runs
  | getDirentByTitle idx =>
    simpa [Call.lost, Call.run, Call.answer] using map_runs Value.dirent getDirentByTitle_runs
  | getCluster idx =>
    simpa [Call.lost, Call.run, Call.answer] using map_runs Value.cluster getCluster_runs
  | getChecksum =>
    have h := (@getChecksum_runs build a).map Value.checksum
    have hlost : Call.lost a.header .getChecksum (Call.answer build a .getChecksum) =
        (a.header.hasChecksum && decide (a.checksum = .ok [])) := by
      have hfail := readFailure_checksum (a := a)
      rw [← readFailure_map Value.checksum] at hfail
      simp only [Call.lost, Call.answer, hfail, decide_true, Bool.true_and, Bool.false_or]
      congr 2
      cases a.checksum with
      | ok str => simp [Functor.map, Except.map]
      | error e => simp [Functor.map, Except.map]
    rw [hlost]
    exact h

section Lost
variable {idx : UInt32}

/-- Nothing can be extracted from a failed stream. -/
theorem seek_extract_lost {α β : Type} {off : UInt64} {step : IStream → α × IStream} {text : String}
    {value : α → β} (hstep : ∀ rest, (step ⟨rest, true⟩).2.fail = true) :
    Runs (Serves build a true)
      (do
        seekg off
        let v ← extract step
        if ← failed then throw (.format text)
        return value v)
      (a.seek off >>= fun _ => .error (.format text)) (Serves build a true) := by
  cases hseek : a.seek off with
  | error e => exact .bind_error (seekg_error hseek)
  | ok s =>
    refine (seekg_ok hseek).bind ((extract_runs step).bind (failed_runs.bind ?_))
    simp only [hstep, if_true]
    exact .bind_error (.throw fun _ h => ⟨_, hstep _, h⟩)

theorem read_lost (n : ℕ) (rest : Bytes) : ((⟨rest, true⟩ : IStream).read n).2.fail = true := rfl

theorem getOffset_lost {ptrOffset : UInt64} :
    Runs (Serves build a true) (getOffset build ptrOffset idx)
      (a.seek (ptrOffset + 8 * idx.toUInt64) >>= fun _ => .error (.format "error reading offset"))
      (Serves build a true) := seek_extract_lost (read_lost 8)

theorem getDirent_lost : Runs (Serves build a true) (getDirent build idx)
    (if a.header.articleCount ≤ idx then .error (.format "article index out of range")
      else .error (.format "file in error state")) (Serves build a true) := by
  refine (setBufsize_serves 64).bind (inRange_runs (fun hidx => ?_) fun hidx => ?_)
  · exact ⟨if_pos hidx, fun _ h => h⟩
  · rw [if_neg hidx]
    refine Serves.runs fun s hs => failed_runs.bind ?_
    rw [hs]
    exact .bind_error (.throw fun _ h => ⟨s, hs, h⟩)

theorem getIndexByTitle_lost : Runs (Serves build a true) (getIndexByTitle build idx)
    (if a.header.articleCount ≤ idx then .error (.format "article index out of range")
      else a.seek (a.header.titleIdxPos + 4 * idx.toUInt64) >>= fun _ =>
        .error (.format "error reading title index")) (Serves build a true) := by
  refine inRange_runs (fun hidx => ?_) fun hidx => ?_
  · exact ⟨if_pos hidx, fun _ h => h⟩
  · rw [if_neg hidx]
    refine .get_bind fun f hf => ?_
    rw [hf.header]
    exact seek_extract_lost (read_lost 4)

theorem getDirentByTitle_lost : Runs (Serves build a true) (getDirentByTitle build idx)
    (if a.header.articleCount ≤ idx then .error (.format "article index out of range")
      else a.seek (a.header.titleIdxPos + 4 * idx.toUInt64) >>= fun _ =>
        .error (.format "error reading title index")) (Serves build a true) := by
  have hindex := @getIndexByTitle_lost build a idx
  refine inRange_runs (fun hidx => ?_) fun hidx => ?_
  · exact ⟨if_pos hidx, fun _ h => h⟩
  · rw [if_neg hidx] at hindex ⊢
    cases hseek : a.seek (a.header.titleIdxPos + 4 * idx.toUInt64) with
    | error e =>
      rw [hseek] at hindex
      exact .bind_error hindex
    | ok s =>
      rw [hseek] at hindex
      exact .bind_error hindex

theorem readCluster_lost : Runs (Serves build a true) (readCluster build idx)
    (a.seek (a.header.clusterPtrPos + 8 * idx.toUInt64) >>= fun _ =>
      .error (.format "error reading offset")) (Serves build a true) := by
  have hoffset := @getOffset_lost build a idx a.header.clusterPtrPos
  have hcluster : Runs (Serves build a true) (getClusterOffset build idx)
      (a.seek (a.header.clusterPtrPos + 8 * idx.toUInt64) >>= fun _ =>
        .error (.format "error reading offset")) (Serves build a true) := by
    refine .get_bind fun f hf => ?_
    rw [hf.header]
    exact hoffset
  apply (setBufsize_serves 16384).bind
  cases hseek : a.seek (a.header.clusterPtrPos + 8 * idx.toUInt64) with
  | error e =>
    rw [hseek] at hcluster
    exact .bind_error hcluster
  | ok s =>
    rw [hseek] at hcluster
    exact .bind_error hcluster

theorem getChecksum_lost : Runs (Serves build a true) getChecksum
    (if a.header.hasChecksum then a.seek a.header.getChecksumPos >>= fun _ => .ok [] else .ok [])
    (Serves build a true) := by
  refine .get_bind fun f hf => ?_
  simp only [hf.header]
  by_cases hhas : a.header.hasChecksum = true
  · simp only [hhas, Bool.not_true, Bool.false_eq_true, if_false, if_true]
    cases hseek : a.seek a.header.getChecksumPos with
    | error e => exact .bind_error (seekg_error hseek)
    | ok s =>
      refine (seekg_ok hseek).bind ((extract_runs _).bind (failed_runs.bind ?_))
      simp only [read_lost, if_true]
      exact .pure fun _ h => ⟨_, read_lost 16 _, h⟩
  · simp only [hhas, Bool.not_false, Bool.false_eq_true, if_false, if_true]
    exact .pure fun _ h => h

end Lost

/-- The outcome of a call that finds the failure flag set and would use the stream. -/
def Call.refusal : Call → Except ZimError Value
  | .getDirent _ => .error (.format "file in error state")
  | .getIndexByTitle _ | .getDirentByTitle _ => .error (.format "error reading title index")
  | .getCluster _ => .error (.format "error reading offset")
  | .getChecksum => .ok (.checksum [])

theorem getCluster_lost {idx : UInt32} {f : FileImpl} (hf : Serves build a true f) :
    (outcome (getCluster build idx f) = a.cluster build idx ∨
        outcome (getCluster build idx f) = .error (.format "error reading offset")) ∧
      Serves build a true (state (getCluster build idx f)) := by
  have hheader := hf.header
  by_cases hidx : a.header.clusterCount ≤ idx
  · have hrun : getCluster build idx f =
        .error (.format "cluster index out of range") f := by
      simp [getCluster, getCountClusters, bind_run, hheader, hidx]
    rw [hrun]
    exact ⟨.inl (by rw [Archive.cluster, if_pos hidx]; rfl), hf⟩
  · obtain ⟨s, hs, hholds⟩ := hf
    obtain ⟨hstate, hfound⟩ := hholds.getx_cluster idx
    cases hget : (f.clusterCache.getx idx).1 with
    | some c =>
      have hrun : getCluster build idx f =
          .ok c { f with clusterCache := (f.clusterCache.getx idx).2 } := by
        simp [getCluster, getCountClusters, bind_run, hheader, hidx, hget]
      rw [hrun]
      exact ⟨.inl (hfound c hget).symm, s, hs, hstate⟩
    | none =>
      have hrun : getCluster build idx f =
          readCluster build idx { f with clusterCache := (f.clusterCache.getx idx).2 } := by
        simp [getCluster, getCountClusters, bind_run, hheader, hidx, hget]
      obtain ⟨hout, hlost⟩ := @readCluster_lost build a idx _ ⟨s, hs, hstate⟩
      rw [hrun]
      refine ⟨?_, hlost⟩
      rw [hout, Archive.cluster, if_neg hidx, Archive.offset]
      cases hseek : a.seek (a.header.clusterPtrPos + 8 * idx.toUInt64) with
      | error e => exact .inl rfl
      | ok s => exact .inr rfl

/-- With the failure flag set a call answers as ever or refuses to, and the flag stays set. -/
theorem run_lost (c : Call) {f : FileImpl} (hf : Serves build a true f) :
    (outcome (c.run build f) = c.answer build a ∨ outcome (c.run build f) = c.refusal) ∧
      Serves build a true (state (c.run build f)) := by
  cases c with
  | getDirent idx =>
    obtain ⟨hout, hstate⟩ := (@getDirent_lost build a idx).map Value.dirent f hf
    refine ⟨?_, hstate⟩
    by_cases hidx : a.header.articleCount ≤ idx
    · left
      rw [Call.run, hout, Call.answer, Archive.dirent, if_pos hidx, if_pos hidx]
    · right
      rw [Call.run, hout, if_neg hidx]
      rfl
  | getIndexByTitle idx =>
    obtain ⟨hout, hstate⟩ := (@getIndexByTitle_lost build a idx).map Value.index f hf
    refine ⟨?_, hstate⟩
    rw [Call.run, hout, Call.answer, Archive.indexByTitle]
    split
    · exact .inl rfl
    · cases hseek : a.seek (a.header.titleIdxPos + 4 * idx.toUInt64) with
      | error e => exact .inl rfl
      | ok s => exact .inr rfl
  | getDirentByTitle idx =>
    obtain ⟨hout, hstate⟩ := (@getDirentByTitle_lost build a idx).map Value.dirent f hf
    refine ⟨?_, hstate⟩
    rw [Call.run, hout, Call.answer, Archive.direntByTitle, Archive.indexByTitle]
    split
    · exact .inl rfl
    · cases hseek : a.seek (a.header.titleIdxPos + 4 * idx.toUInt64) with
      | error e => exact .inl rfl
      | ok s => exact .inr rfl
  | getCluster idx =>
    obtain ⟨hout, hstate⟩ := @getCluster_lost build a idx _ hf
    rw [Call.run, outcome_map, state_map]
    refine ⟨?_, hstate⟩
    rcases hout with hout | hout
    · left
      rw [hout]
      rfl
    · right
      rw [hout]
      rfl
  | getChecksum =>
    obtain ⟨hout, hstate⟩ := getChecksum_lost.map Value.checksum f hf
    refine ⟨?_, hstate⟩
    rw [Call.run, hout, Call.answer, Archive.checksum]
    split
    · cases hseek : a.seek a.header.getChecksumPos with
      | error e => exact .inl rfl
      | ok s => exact .inr rfl
    · exact .inl rfl

section Sequences
variable {archive : Bytes} {direntCache clusterCache : ℕ} {f₀ : FileImpl}

/-- Whether a call on a fresh object loses a read from the stream. -/
def Call.loses (build : Build) (f₀ : FileImpl) (c : Call) : Bool :=
  c.lost f₀.header (outcome (c.run build f₀))

/-- After a sequence of calls the object serves its archive, and its failure flag tells whether
one of them lost a read. -/
theorem after_serves (hnew : new build archive direntCache clusterCache = .ok f₀)
    (calls : List Call) :
    Serves build ⟨archive, f₀.header, f₀.mimeTypes⟩ (calls.any (Call.loses build f₀))
      (Call.after build calls f₀) := by
  induction calls using List.reverseRecOn with
  | nil => exact new_serves hnew
  | append_singleton calls c ih =>
    rw [Call.after_concat, List.any_append]
    by_cases hlost : calls.any (Call.loses build f₀) = true
    · rw [hlost] at ih ⊢
      exact (run_lost c ih).2
    · rw [eq_false_of_ne_true hlost] at ih ⊢
      have hfresh := (run_runs c f₀ (new_serves hnew)).1
      have hstate := (run_runs c _ ih).2
      simpa [Call.loses, hfresh] using hstate

/-- A call answers as on a fresh object as long as no call before it has lost a read. Behind such a
call it answers so or refuses to, and every entry of the archive is refused. -/
theorem outcome_after (hnew : new build archive direntCache clusterCache = .ok f₀)
    (calls : List Call) (c : Call) :
    ((∀ c' ∈ calls, c'.loses build f₀ = false) →
      outcome (c.run build (Call.after build calls f₀)) = outcome (c.run build f₀)) ∧
    ((∃ c' ∈ calls, c'.loses build f₀ = true) →
      (outcome (c.run build (Call.after build calls f₀)) = outcome (c.run build f₀) ∨
        outcome (c.run build (Call.after build calls f₀)) = c.refusal) ∧
      ∀ idx < f₀.getCountArticles, c = .getDirent idx →
        outcome (c.run build (Call.after build calls f₀)) = c.refusal) := by
  have hafter := after_serves hnew calls
  have hfresh := (run_runs c f₀ (new_serves hnew)).1
  constructor
  · intro hnone
    have hany : calls.any (Call.loses build f₀) = false := by simpa using hnone
    rw [hany] at hafter
    rw [hfresh]
    exact (run_runs c _ hafter).1
  · intro hsome
    have hany : calls.any (Call.loses build f₀) = true := by simpa using hsome
    rw [hany] at hafter
    rw [hfresh]
    refine ⟨(run_lost c hafter).1, ?_⟩
    rintro idx hidx rfl
    have hin : ¬ f₀.header.articleCount ≤ idx := UInt32.not_le.mpr hidx
    have hout := ((@getDirent_lost build _ idx).map Value.dirent _ hafter).1
    simp only [if_neg hin] at hout
    exact hout

end Sequences

section Damaged

/-- An archive with two entries, the pointer to the first one leading to the end of the file. -/
def damaged : Bytes :=
  Fileheader.write .little
    { Fileheader.default with
      articleCount := 2, mimeListPos := 80, urlPtrPos := 81, titleIdxPos := 97,
      clusterPtrPos := 124, checksumPos := 124 } ++
  [0] ++ LittleEndian.encode 8 124 ++ LittleEndian.encode 8 105 ++ LittleEndian.encode 4 0 ++
  LittleEndian.encode 4 1 ++
  Zim.Dirent.write .little { Zim.Dirent.new with ns := 65, url := [65] }

/-- Reading the first entry fails, and afterwards the second one is refused. -/
theorem damaged_opens : ∃ f, new .noCodecs damaged 2 2 = .ok f ∧ 1 < f.getCountArticles ∧
    (Call.getDirent 0).loses .noCodecs f = true ∧
    outcome ((Call.getDirent 1).run .noCodecs f) =
      .ok (.dirent { Zim.Dirent.new with ns := 65, url := [65] }) ∧
    outcome ((Call.getDirent 1).run .noCodecs (Call.after .noCodecs [.getDirent 0] f)) =
      .error (.format "file in error state") := by
  have hcheck : Fallible.passes (new .noCodecs damaged 2 2) (fun f =>
      1 < f.getCountArticles && (Call.getDirent 0).loses .noCodecs f &&
        outcome ((Call.getDirent 1).run .noCodecs f) =
          .ok (.dirent { Zim.Dirent.new with ns := 65, url := [65] }) &&
        outcome ((Call.getDirent 1).run .noCodecs (Call.after .noCodecs [.getDirent 0] f)) =
          .error (.format "file in error state")) = true := by decide +kernel
  obtain ⟨f, hnew, hf⟩ := Fallible.exists_of_passes hcheck
  simp only [Bool.and_eq_true, decide_eq_true_eq, and_assoc] at hf
  exact ⟨f, hnew, hf⟩

theorem outcome_after_damaged : ∃ f, new .noCodecs damaged 2 2 = .ok f ∧
    outcome ((Call.getDirent 1).run .noCodecs (Call.after .noCodecs [.getDirent 1] f)) =
      outcome ((Call.getDirent 1).run .noCodecs f) ∧
    outcome ((Call.getDirent 1).run .noCodecs (Call.after .noCodecs [.getDirent 0] f)) =
      (Call.getDirent 1).refusal := by
  obtain ⟨f, hnew, hcount, hlost, hfresh, -⟩ := damaged_opens
  refine ⟨f, hnew, (outcome_after hnew [.getDirent 1] _).1 ?_, ?_⟩
  · intro c hc
    rw [List.mem_singleton.mp hc, Call.loses, hfresh]
    rfl
  · exact ((outcome_after hnew [.getDirent 0] _).2 ⟨_, List.mem_singleton_self _, hlost⟩).2 1
      hcount rfl

/-- A call may answer otherwise than on a fresh object. -/
theorem not_outcome_after : ¬ ∀ (build : Build) (archive : Bytes) (direntCache clusterCache : ℕ)
    (f₀ : FileImpl) (calls : List Call) (c : Call),
    new build archive direntCache clusterCache = .ok f₀ →
      outcome (c.run build (Call.after build calls f₀)) = outcome (c.run build f₀) := by
  intro hall
  obtain ⟨f, hnew, -, -, hfresh, hafter⟩ := damaged_opens
  have heq := hall .noCodecs damaged 2 2 f [.getDirent 0] (.getDirent 1) hnew
  rw [hfresh, hafter] at heq
  cases heq

end Damaged

end FileImpl
end Zim
