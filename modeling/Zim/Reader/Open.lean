import Zim.Reader.Archive

/-! Opening an archive: when the constructor of `FileImpl` succeeds, and what it leaves. -/
namespace Zim
open Cxx Stateful
namespace FileImpl
variable {build : Build} {a : Archive}

def withStream (f : FileImpl) (s : IStream) : FileImpl :=
  { f with zimFile := { f.zimFile with toIStream := s } }

section Stream
variable {I : FileImpl → Prop} (hI : ∀ f s, I f → I (withStream f s))
include hI

theorem setStream_preserves (s : IStream) : Preserves I (setStream s) :=
  .modify fun f h => hI f s h

theorem extract_preserves {α : Type} (step : IStream → α × IStream) :
    Preserves I (extract step) :=
  .bind .get fun _ => .bind (setStream_preserves hI _) fun _ => .pure _

theorem seekg_preserves (off : UInt64) : Preserves I (seekg off) :=
  .bind .get fun _ =>
    .ite (setStream_preserves hI _) (.bind (setStream_preserves hI _) fun _ => .throw _)

omit hI in
theorem failed_preserves : Preserves I failed := .bind .get fun _ => .pure _

theorem getOffset_preserves (ptrOffset : UInt64) (idx : UInt32) :
    Preserves I (getOffset build ptrOffset idx) :=
  .bind (seekg_preserves hI _) fun _ => .bind (extract_preserves hI _) fun _ =>
    .bind failed_preserves fun _ => .ite (.throw_bind _) (.pure _)

theorem checkLastOffset_preserves : Preserves I (checkLastOffset build) :=
  .bind .get fun _ => .ite
    (.bind (.bind .get fun _ => getOffset_preserves hI _ _)
      fun _ => .bind .get fun _ => .ite (.throw _) (.pure _))
    (.pure _)

theorem readMimeTypes_preserves
    (hpush : ∀ f mimeType, I f → I { f with mimeTypes := f.mimeTypes ++ [mimeType] })
    (turns : ℕ) : Preserves I (readMimeTypes turns) := by
  induction turns with
  | zero => exact .throw _
  | succ turns ih =>
    have hpush (mimeType : Bytes) :
        Preserves I (modify fun f => { f with mimeTypes := f.mimeTypes ++ [mimeType] } : M Unit) :=
      .modify fun f h => hpush f mimeType h
    exact .bind (extract_preserves hI _) fun _ => .bind failed_preserves fun _ =>
      .ite (.bind (.throw _) fun _ => .ite (.bind (hpush _) fun _ => ih) (.pure _))
        (.ite (.bind (hpush _) fun _ => ih) (.pure _))

end Stream

section Constructor
variable {archive : Bytes} {direntCache clusterCache : ℕ}

/-- What the constructor leaves as it is. -/
structure Fresh (archive : Bytes) (direntCache clusterCache : ℕ) (f : FileImpl) : Prop where
  archive : f.zimFile.archive = archive
  direntCache : f.direntCache = .new direntCache
  clusterCache : f.clusterCache = .new clusterCache
  namespaceBeginCache : f.namespaceBeginCache = fun _ => none
  namespaceEndCache : f.namespaceEndCache = fun _ => none
  namespaces : f.namespaces = []

theorem Fresh.withStream (f : FileImpl) (s : IStream)
    (h : Fresh archive direntCache clusterCache f) :
    Fresh archive direntCache clusterCache (f.withStream s) := ⟨h.1, h.2, h.3, h.4, h.5, h.6⟩

theorem readHeader_fresh :
    Preserves (Fresh archive direntCache clusterCache) (readHeader build) := by
  refine .bind (extract_preserves Fresh.withStream _) fun header => ?_
  cases header with
  | none => exact .throw _
  | some header => exact .modify fun _ h => ⟨h.1, h.2, h.3, h.4, h.5, h.6⟩

theorem construct_fresh : Preserves (Fresh archive direntCache clusterCache) (construct build) :=
  .bind readHeader_fresh fun _ => .bind (checkLastOffset_preserves Fresh.withStream) fun _ =>
    .bind .get fun _ => .bind (seekg_preserves Fresh.withStream _) fun _ => .bind .get fun _ =>
      readMimeTypes_preserves Fresh.withStream (fun _ _ h => ⟨h.1, h.2, h.3, h.4, h.5, h.6⟩) _

theorem extract_run {α : Type} (step : IStream → α × IStream) (f : FileImpl) :
    extract step f =
      .ok (step f.zimFile.toIStream).1 (f.withStream (step f.zimFile.toIStream).2) := rfl

/-- One turn of the loop over the mime types. -/
theorem readMimeTypes_succ (turns : ℕ) (f : FileImpl) :
    readMimeTypes (turns + 1) f =
      if (getline f.zimFile.toIStream).2.fail then
        .error (.format "error reading mime type list")
          (f.withStream (getline f.zimFile.toIStream).2)
      else if (getline f.zimFile.toIStream).1 ≠ [] then
        readMimeTypes turns { f.withStream (getline f.zimFile.toIStream).2 with
          mimeTypes := f.mimeTypes ++ [(getline f.zimFile.toIStream).1] }
      else .ok ⟨⟩ (f.withStream (getline f.zimFile.toIStream).2) := by
  simp only [readMimeTypes, extract, failed, setStream, bind_run, get_run, modify_run, pure_run,
    withStream]
  split
  · rfl
  · split <;> rfl

/-- The list of mime types ends with a read that did not fail. -/
theorem readMimeTypes_ok {turns : ℕ} {f f' : FileImpl} (h : readMimeTypes turns f = .ok ⟨⟩ f') :
    f'.zimFile.fail = false := by
  induction turns generalizing f with
  | zero => cases h
  | succ turns ih =>
    rw [readMimeTypes_succ] at h
    split_ifs at h with hfail hmime
    · exact ih h
    · cases h
      exact eq_false_of_ne_true hfail

/-- A freshly opened object. -/
theorem new_ok {f : FileImpl} (h : new build archive direntCache clusterCache = .ok f) :
    Fresh archive direntCache clusterCache f ∧ f.zimFile.fail = false := by
  unfold new at h
  split at h
  next f' hrun =>
    cases h
    constructor
    · have hfresh := @construct_fresh build archive direntCache clusterCache
        (initial archive direntCache clusterCache) ⟨rfl, rfl, rfl, rfl, rfl, rfl⟩
      rw [hrun] at hfresh
      exact hfresh
    · obtain ⟨_, _, -, hrun⟩ := bind_eq_ok hrun
      obtain ⟨_, _, -, hrun⟩ := bind_eq_ok hrun
      obtain ⟨_, _, -, hrun⟩ := bind_eq_ok hrun
      obtain ⟨_, _, -, hrun⟩ := bind_eq_ok hrun
      obtain ⟨_, _, -, hrun⟩ := bind_eq_ok hrun
      exact readMimeTypes_ok hrun
  next => cases h

theorem readHeader_ok {f f' : FileImpl} (h : readHeader build f = .ok ⟨⟩ f') :
    (Fileheader.read build.host f.zimFile.toIStream).1 = some f'.header := by
  obtain ⟨header, f₁, hextract, h⟩ := bind_eq_ok h
  rw [extract_run, EStateM.Result.ok.injEq] at hextract
  obtain ⟨rfl, -⟩ := hextract
  cases hread : (Fileheader.read build.host f.zimFile.toIStream).1 with
  | none =>
    rw [hread] at h
    cases h
  | some header =>
    rw [hread] at h
    cases h
    rfl

/-- An opened object has the header that its archive begins with. -/
theorem new_header {f : FileImpl} (h : new build archive direntCache clusterCache = .ok f) :
    (Fileheader.read build.host (.ofBytes archive)).1 = some f.header := by
  unfold new at h
  split at h
  next f' hrun =>
    cases h
    obtain ⟨⟨⟩, f₁, hheader, hrun⟩ := bind_eq_ok hrun
    have hread := readHeader_ok hheader
    have hstream (f : FileImpl) (s : IStream) (hf : f.header = f₁.header) :
        (f.withStream s).header = f₁.header := hf
    have hrest : Preserves (fun f => f.header = f₁.header) (do
        checkLastOffset build
        seekg (← get).header.mimeListPos
        readMimeTypes ((← get).zimFile.rest.length + 1)) :=
      .bind (checkLastOffset_preserves hstream) fun _ => .bind .get fun _ =>
        .bind (seekg_preserves hstream _) fun _ => .bind .get fun _ =>
          readMimeTypes_preserves hstream (fun _ _ hf => hf) _
    have hkept := hrest f₁ rfl
    rw [hrun] at hkept
    rw [show f.header = f₁.header from hkept]
    exact hread
  next => cases h

/-- A freshly opened object serves what it has read of its archive. -/
theorem new_serves {f : FileImpl} (h : new build archive direntCache clusterCache = .ok f) :
    Serves build ⟨archive, f.header, f.mimeTypes⟩ false f := by
  obtain ⟨hfresh, hfail⟩ := new_ok h
  refine ⟨_, hfail, rfl, hfresh.archive, rfl, rfl, ?_, ?_⟩
  · rw [hfresh.direntCache]
    exact Cache.all_new _
  · rw [hfresh.clusterCache]
    exact Cache.all_new _

end Constructor

end FileImpl

/-- The number in the 8 bytes that are the `i`-th ones behind a position. -/
def pointer (content : Bytes) (pos : UInt64) (i : ℕ) : ℕ :=
  LittleEndian.decode (field content (pos.toNat + 8 * i) 8)

namespace Archive
variable {build : Build} {a : Archive}

theorem seek_ok {off : UInt64} (h : off.toNat ≤ a.content.length) :
    a.seek off = .ok (.ofBytes (a.content.drop off.toNat)) := if_pos h

/-- A pointer inside an archive is read. -/
theorem offset_ok {pos : UInt64} {idx : UInt32}
    (h : pos.toNat + 8 * idx.toNat + 8 ≤ a.content.length) (hlen : a.content.length < 2 ^ 64) :
    a.offset build pos idx = .ok (UInt64.ofNat (pointer a.content pos idx.toNat)) := by
  have hpos : (pos + 8 * idx.toUInt64).toNat = pos.toNat + 8 * idx.toNat := by
    rw [UInt64.toNat_add, UInt64.toNat_mul, UInt32.toNat_toUInt64]
    simp only [UInt64.reduceToNat]
    omega
  have hread := @IStream.read_of_le (a.content.drop (pos.toNat + 8 * idx.toNat)) 8
    (by rw [List.length_drop]; omega)
  rw [offset, seek_ok (by omega), hpos]
  simp [bind, Except.bind, IStream.ofBytes, hread, pointer, field]

/-- An entry is read where its pointer leads. -/
theorem dirent_ok {idx : UInt32} {off : UInt64} {d : Dirent} {s : IStream}
    (hidx : idx < a.header.articleCount)
    (hoff : a.offset build a.header.urlPtrPos idx = .ok off)
    (hle : off.toNat ≤ a.content.length)
    (hread : Dirent.read build.host .new (.ofBytes (a.content.drop off.toNat)) = (d, s))
    (hgood : s.fail = false) : a.dirent build idx = .ok d := by
  rw [dirent, if_neg (UInt32.not_le.mpr hidx), hoff]
  simp [bind, Except.bind, readDirent, seek_ok hle, hread, hgood]

/-- A cluster is read where its pointer leads. -/
theorem cluster_ok {idx : UInt32} {off : UInt64} {impl : ClusterImpl}
    (hidx : idx < a.header.clusterCount)
    (hoff : a.offset build a.header.clusterPtrPos idx = .ok off)
    (hle : off.toNat ≤ a.content.length)
    (hget : ClusterImpl.get build (.ofBytes (a.content.drop off.toNat)) = .ok (impl, false)) :
    a.cluster build idx = .ok ⟨some impl⟩ := by
  rw [cluster, if_neg (UInt32.not_le.mpr hidx), hoff]
  simp [bind, Except.bind, readCluster, seek_ok hle, hget]

/-- The title index is read inside an archive. -/
theorem indexByTitle_ok {idx : UInt32} (hidx : idx < a.header.articleCount)
    (h : a.header.titleIdxPos.toNat + 4 * idx.toNat + 4 ≤ a.content.length)
    (hlen : a.content.length < 2 ^ 64) :
    a.indexByTitle build idx = .ok (UInt32.ofNat (LittleEndian.decode
      (field a.content (a.header.titleIdxPos.toNat + 4 * idx.toNat) 4))) := by
  have hpos : (a.header.titleIdxPos + 4 * idx.toUInt64).toNat =
      a.header.titleIdxPos.toNat + 4 * idx.toNat := by
    rw [UInt64.toNat_add, UInt64.toNat_mul, UInt32.toNat_toUInt64]
    simp only [UInt64.reduceToNat]
    omega
  have hread := @IStream.read_of_le
    (a.content.drop (a.header.titleIdxPos.toNat + 4 * idx.toNat)) 4
    (by rw [List.length_drop]; omega)
  rw [indexByTitle, if_neg (UInt32.not_le.mpr hidx), seek_ok (by omega), hpos]
  simp [bind, Except.bind, IStream.ofBytes, hread, field]

end Archive

namespace FileImpl
variable {build : Build} {a : Archive} {archive : Bytes} {direntCache clusterCache : ℕ}

theorem checkLastOffset_runs (hlen : a.content.length < 2 ^ 64)
    (hlast : a.header.clusterCount ≠ 0 → ∃ off, off.toNat ≤ a.content.length ∧
      a.offset build a.header.clusterPtrPos (a.header.clusterCount - 1) = .ok off) :
    Runs (Serves build a false) (checkLastOffset build) (.ok ⟨⟩) (Serves build a false) := by
  refine .get_bind fun f hf => ?_
  rw [getCountClusters, hf.header]
  by_cases hcount : a.header.clusterCount = 0
  · simp only [hcount, ne_eq, not_true_eq_false, if_false]
    exact .pure fun _ h => h
  · obtain ⟨off, hoff, hread⟩ := hlast hcount
    have hruns := @getClusterOffset_runs build a (a.header.clusterCount - 1)
    rw [hread] at hruns
    simp only [ne_eq, hcount, not_false_eq_true, if_true]
    refine hruns.bind (.get_bind fun f' hf' => ?_)
    obtain ⟨s, -, hholds⟩ := hf'
    have hsize : ¬ f'.fsize < off := by
      rw [UInt64.not_lt, fsize, hholds.archive, UInt64.le_iff_toNat_le,
        UInt64.toNat_ofNat_of_lt' hlen]
      exact hoff
    rw [if_neg hsize]
    exact .pure fun _ h => h

theorem getline_append {line : Bytes} (h : 0 ∉ line) (rest : Bytes) :
    getline ⟨line ++ 0 :: rest, false⟩ = (line, ⟨rest, false⟩) := by
  have hne : ∀ b ∈ line, (b ≠ 0) = true := fun b hb => by
    simp only [ne_eq, eq_iff_iff, iff_true]
    rintro rfl
    exact h hb
  have htake : (line ++ 0 :: rest).takeWhile (· ≠ 0) = line := by
    rw [List.takeWhile_append_of_pos (by simpa using hne)]
    simp
  have hdrop : (line ++ 0 :: rest).dropWhile (· ≠ 0) = 0 :: rest := by
    rw [List.dropWhile_append_of_pos (by simpa using hne)]
    simp
  rw [getline]
  simp only [Bool.false_eq_true, if_false, htake, hdrop, List.tail_cons]
  rw [if_neg (by simp)]

/-- A list of mime types that ends with an empty one is read. -/
theorem readMimeTypes_append {l : List Bytes} (hl : ∀ m ∈ l, m ≠ [] ∧ 0 ∉ m) {turns : ℕ}
    (hturns : l.length < turns) {f : FileImpl} {rest : Bytes}
    (hf : f.zimFile.toIStream = ⟨l.flatMap (fun m => m ++ [0]) ++ 0 :: rest, false⟩) :
    readMimeTypes turns f =
      .ok ⟨⟩ { f.withStream ⟨rest, false⟩ with mimeTypes := f.mimeTypes ++ l } := by
  induction l generalizing turns f with
  | nil =>
    obtain ⟨turns, rfl⟩ := Nat.exists_eq_add_of_lt hturns
    have hget := @getline_append [] List.not_mem_nil rest
    rw [List.nil_append] at hget
    rw [readMimeTypes_succ, hf]
    simp [hget, withStream]
  | cons m l ih =>
    obtain ⟨turns, rfl⟩ : ∃ n, turns = n + 1 := ⟨turns - 1, by omega⟩
    obtain ⟨hne, hzero⟩ := hl m List.mem_cons_self
    have hget := getline_append hzero (l.flatMap (fun m => m ++ [0]) ++ 0 :: rest)
    have hrest : (m :: l).flatMap (fun m => m ++ [0]) ++ 0 :: rest =
        m ++ 0 :: (l.flatMap (fun m => m ++ [0]) ++ 0 :: rest) := by simp
    rw [readMimeTypes_succ, hf, hrest, hget]
    simp only [Bool.false_eq_true, if_false, ne_eq, hne, not_false_eq_true, if_true]
    rw [ih (fun m hm => hl m (List.mem_cons_of_mem _ hm)) (by simpa using hturns) rfl]
    simp [withStream]

/-- Bytes that end with a zero hold a list that ends with an empty line at the next zero. -/
theorem exists_lines {bs : Bytes} (h : bs = [] ∨ bs.getLast? = some 0) (tail : Bytes) :
    ∃ (l : List Bytes) (rest : Bytes), (∀ m ∈ l, m ≠ [] ∧ 0 ∉ m) ∧
      bs ++ 0 :: tail = l.flatMap (fun m => m ++ [0]) ++ 0 :: rest := by
  generalize hn : bs.length = n
  induction n using Nat.strong_induction_on generalizing bs with
  | _ n ih =>
    rcases h with rfl | hlast
    · exact ⟨[], tail, nofun, rfl⟩
    · obtain ⟨line, bs', rfl, hline⟩ :=
        List.eq_append_cons_of_mem (List.mem_of_getLast? hlast)
      by_cases hempty : line = []
      · exact ⟨[], bs' ++ 0 :: tail, nofun, by simp [hempty]⟩
      · have hlast' : bs' = [] ∨ bs'.getLast? = some 0 := by
          cases bs' with
          | nil => exact .inl rfl
          | cons b bs' => exact .inr (by simpa [List.getLast?_append] using hlast)
        obtain ⟨l, rest, hl, heq⟩ := ih bs'.length
          (by rw [← hn, List.length_append, List.length_cons]; omega) hlast' rfl
        refine ⟨line :: l, rest, ?_, ?_⟩
        · intro m hm
          rcases List.mem_cons.mp hm with rfl | hm
          · exact ⟨hempty, hline⟩
          · exact hl m hm
        · rw [List.append_assoc, List.cons_append, heq]
          simp

theorem length_le_flatMap (l : List Bytes) : l.length ≤ (l.flatMap fun m => m ++ [0]).length := by
  induction l with
  | nil => exact le_rfl
  | cons m l ih =>
    simp only [List.flatMap_cons, List.length_append, List.length_cons, List.length_nil]
    omega

/-- A file with a header, a last cluster pointer and a list of mime types is opened. -/
theorem new_of {fh : Fileheader} {s rest : Bytes} {l : List Bytes}
    (hheader : Fileheader.read build.host ⟨archive, false⟩ = (some fh, ⟨s, false⟩))
    (hlen : archive.length < 2 ^ 64)
    (hlast : fh.clusterCount ≠ 0 → ∃ off, off.toNat ≤ archive.length ∧
      (Archive.mk archive fh []).offset build fh.clusterPtrPos (fh.clusterCount - 1) = .ok off)
    (hpos : fh.mimeListPos.toNat ≤ archive.length) (hl : ∀ m ∈ l, m ≠ [] ∧ 0 ∉ m)
    (hmime : archive.drop fh.mimeListPos.toNat = l.flatMap (fun m => m ++ [0]) ++ 0 :: rest) :
    ∃ f, new build archive direntCache clusterCache = .ok f ∧ f.header = fh ∧ f.mimeTypes = l := by
  let f₁ : FileImpl := { (initial archive direntCache clusterCache).withStream ⟨s, false⟩ with
    header := fh }
  have hread : readHeader build (initial archive direntCache clusterCache) = .ok ⟨⟩ f₁ := by
    have hstream : (initial archive direntCache clusterCache).zimFile.toIStream =
        ⟨archive, false⟩ := rfl
    simp only [readHeader, extract, bind_run, get_run, hstream, hheader, setStream, modify_run,
      pure_run]
    rfl
  have hserves : Serves build ⟨archive, fh, []⟩ false f₁ :=
    ⟨_, rfl, rfl, rfl, rfl, rfl, Cache.all_new _, Cache.all_new _⟩
  obtain ⟨hcheck, hserves₂⟩ := @checkLastOffset_runs build ⟨archive, fh, []⟩ hlen hlast f₁ hserves
  have hseek : (Archive.mk archive fh []).seek fh.mimeListPos = _ := Archive.seek_ok hpos
  obtain ⟨hgo, hholds⟩ := seekg_good hseek _ hserves₂
  generalize hf₂ : state (checkLastOffset build f₁) = f₂ at hserves₂ hgo hholds
  generalize hf₃ : state (seekg fh.mimeListPos f₂) = f₃ at hholds
  have hstream := hholds.stream
  simp only [hmime] at hstream
  have hturns : l.length < f₃.zimFile.rest.length + 1 := by
    have hrest := congrArg (fun s => s.rest.length) hstream
    have hlen := length_le_flatMap l
    simp only [IStream.ofBytes, List.length_append, List.length_cons] at hrest
    omega
  have hlines := readMimeTypes_append hl hturns hstream
  have hrun : construct build (initial archive direntCache clusterCache) =
      .ok ⟨⟩ { f₃.withStream ⟨rest, false⟩ with mimeTypes := f₃.mimeTypes ++ l } := by
    rw [construct, bind_ok hread, bind_ok (eq_ok_of_outcome hcheck), hf₂, bind_ok (get_run _),
      hserves₂.header, bind_ok (eq_ok_of_outcome hgo), hf₃, bind_ok (get_run _)]
    exact hlines
  refine ⟨{ f₃.withStream ⟨rest, false⟩ with mimeTypes := f₃.mimeTypes ++ l }, ?_, ?_, ?_⟩
  · rw [new, hrun]
  · exact hholds.header
  · simp [hholds.mimeTypes]

/-- A constructor that returns has read the mime types up to the first empty line. -/
theorem new_mimeTypes {f : FileImpl} (h : new build archive direntCache clusterCache = .ok f)
    {l : List Bytes} {rest : Bytes} (hl : ∀ m ∈ l, m ≠ [] ∧ 0 ∉ m)
    (hmime : archive.drop f.header.mimeListPos.toNat =
      l.flatMap (fun m => m ++ [0]) ++ 0 :: rest) : f.mimeTypes = l := by
  unfold new at h
  split at h
  next f' hrun =>
    cases h
    obtain ⟨⟨⟩, f₁, hheader, hrun⟩ := bind_eq_ok hrun
    obtain ⟨⟨⟩, f₂, hcheck, hrun⟩ := bind_eq_ok hrun
    obtain ⟨_, _, hget, hrun⟩ := bind_eq_ok hrun
    cases hget
    obtain ⟨⟨⟩, f₃, hseek, hrun⟩ := bind_eq_ok hrun
    obtain ⟨_, _, hget, hrun⟩ := bind_eq_ok hrun
    cases hget
    have hbefore : f₂.mimeTypes = [] ∧ f₂.zimFile.archive = archive := by
      let I (f : FileImpl) : Prop := f.mimeTypes = [] ∧ f.zimFile.archive = archive
      have hstream (f : FileImpl) (s : IStream) (hf : I f) : I (f.withStream s) := hf
      have hread : Preserves I (readHeader build) := by
        refine .bind (extract_preserves hstream _) fun header => ?_
        cases header with
        | none => exact .throw _
        | some header => exact .modify fun _ hf => hf
      have h₁ := hread (initial archive direntCache clusterCache) ⟨rfl, rfl⟩
      rw [hheader] at h₁
      have hlast : Preserves I (checkLastOffset build) := checkLastOffset_preserves hstream
      have h₂ := hlast f₁ h₁
      rw [hcheck] at h₂
      exact h₂
    have hstream : f₃ = f₂.withStream ⟨archive.drop f₂.header.mimeListPos.toNat,
        f₂.zimFile.fail⟩ := by
      simp only [seekg, bind_run, get_run, setStream, hbefore.2] at hseek
      split at hseek
      · cases hseek
        rfl
      · cases hseek
    have hkept : f.header = f₃.header := by
      have hpre := readMimeTypes_preserves (I := fun f => f.header = f₃.header)
        (fun _ _ hf => hf) (fun _ _ hf => hf) (f₃.zimFile.rest.length + 1) f₃ rfl
      rw [hrun] at hpre
      exact hpre
    rw [hkept, hstream] at hmime
    have hgood : f₂.zimFile.fail = false := by
      by_contra hfail
      rw [readMimeTypes_succ, hstream] at hrun
      simp [getline, withStream, hfail] at hrun
    have hf₃ : f₃.zimFile.toIStream = ⟨l.flatMap (fun m => m ++ [0]) ++ 0 :: rest, false⟩ := by
      rw [hstream, ← hmime, ← hgood]
      rfl
    have hturns : l.length < f₃.zimFile.rest.length + 1 := by
      have hrest := congrArg (fun s => s.rest.length) hf₃
      have hlen := length_le_flatMap l
      simp only [List.length_append, List.length_cons] at hrest
      omega
    rw [readMimeTypes_append hl hturns hf₃] at hrun
    cases hrun
    simp only [withStream, hstream, hbefore.1, List.nil_append]
  next => cases h

theorem verify_runs (md5 : Bytes → { bs : Bytes // bs.length = 16 }) {body : Bytes}
    (hcontent : a.content = body ++ (md5 body).val) (hhas : a.header.hasChecksum = true)
    (hpos : a.header.getChecksumPos.toNat = body.length) :
    Runs (Serves build a false) (verify md5) (.ok true) (Serves build a false) := by
  have hseek : a.seek 0 = .ok ⟨body ++ (md5 body).val, false⟩ := by
    rw [Archive.seek_ok (Nat.zero_le _), UInt64.toNat_zero, List.drop_zero, hcontent]
    rfl
  have hdigest : IStream.read ⟨(md5 body).val, false⟩ 16 = ((md5 body).val, ⟨[], false⟩) := by
    have happend := @IStream.read_append (md5 body).val [] 16 (md5 body).property
    rwa [List.append_nil] at happend
  refine .get_bind fun f hf => ?_
  simp only [hf.header, hhas, hpos, Bool.not_true, Bool.false_eq_true, if_false]
  refine (seekg_good hseek).bind ((extract_runs _).bind ((extract_runs _).bind
    (failed_runs.bind ?_)))
  simp only [IStream.getUpTo_append, hdigest, Bool.false_eq_true, if_false, ne_eq,
    not_true_eq_false]
  exact .pure fun _ h => ⟨_, rfl, h⟩

end FileImpl
end Zim
