import Mathlib.Data.List.Nodup
import Mathlib.Data.List.ProdSigma
import Mathlib.Data.List.TakeWhile
import Zim.Reader.Streambuf

/-! A split archive read through `zim::streambuf` is the concatenation of its parts. -/
namespace Zim
open Cxx Stateful

/-- The open file of `info` is one of the file it names. -/
def Os.Open (os : Os) (info : OpenfileInfo) : Prop :=
  ∃ pos, os.fds[info.fd]? = some (info.fname, pos)

theorem Os.Open.append {os : Os} {info : OpenfileInfo} (h : os.Open info) (p : Bytes × ℕ)
    (reads : ℕ) : Os.Open ⟨os.fds ++ [p], reads⟩ info := by
  obtain ⟨pos, hpos⟩ := h
  exact ⟨pos, by rw [List.getElem?_append_left (List.getElem?_eq_some_iff.mp hpos).1, hpos]⟩

theorem Os.Open.modify {os : Os} {info : OpenfileInfo} (h : os.Open info) (fd pos reads : ℕ) :
    Os.Open ⟨os.fds.modify fd fun p => (p.1, pos), reads⟩ info := by
  obtain ⟨pos₀, hpos⟩ := h
  rw [Os.Open, List.getElem?_modify, hpos]
  split_ifs <;> exact ⟨_, rfl⟩

namespace Streambuf
variable (fs : Bytes → Option Content) (chosen : ℕ → ℕ)

def fileInfo (fname : Bytes) : FileInfo := ⟨fname, UInt64.ofNat (fileBytes fs fname).length⟩

/-- The buffer is over the given parts, and its cache holds open files of them. -/
structure Ready (names : List Bytes) (sb : Streambuf) : Prop where
  files : sb.files = names.map (fileInfo fs)
  bufsize : 0 < sb.bufsize
  cache : sb.openFilesCache.All fun fname info => info.fname = fname ∧ sb.os.Open info

/-- The bytes still to be read are `rest`. -/
structure Reads (names : List Bytes) (sb : Streambuf) (rest : Bytes) : Prop extends
    Ready fs names sb where
  current : ∃ front later pos, names = front ++ sb.currentFile.fname :: later ∧
    sb.os.fds[sb.currentFile.fd]? = some (sb.currentFile.fname, pos) ∧
    rest = sb.avail ++ ((fileBytes fs sb.currentFile.fname).drop pos ++
      later.flatMap (fileBytes fs))

variable {fs} {names : List Bytes} {sb : Streambuf} {rest : Bytes}

theorem fileBytes_length (fname : Bytes) : (fileBytes fs fname).length < 2 ^ 63 := by
  rw [fileBytes]
  cases fs fname with
  | none => decide
  | some content => exact content.property

theorem fsize_toNat (fname : Bytes) :
    (fileInfo fs fname).fsize.toNat = (fileBytes fs fname).length := by
  have hlen : (fileBytes fs fname).length < 2 ^ 63 := fileBytes_length fname
  simp only [fileInfo, UInt64.toNat_ofNat']
  omega

theorem newOpenfileInfo_spec {fname : Bytes} (h : (fs fname).isSome) :
    newOpenfileInfo fs fname sb = .ok ⟨fname, sb.os.fds.length⟩
      { sb with os := { sb.os with fds := sb.os.fds ++ [(fname, 0)] } } := by
  have hn : (fs fname).isNone = false := by
    rw [← Option.not_isSome, h]
    rfl
  simp [newOpenfileInfo, hn, bind_run, map_run]

theorem setCurrentFile_spec (h : Ready fs names sb) (havail : sb.avail = []) {fname : Bytes}
    (hexists : (fs fname).isSome) (off : UInt64) :
    ∃ sb', setCurrentFile fs fname off sb = .ok ⟨⟩ sb' ∧ Ready fs names sb' ∧ sb'.avail = [] ∧
      sb'.currentFile.fname = fname ∧
      sb'.os.fds[sb'.currentFile.fd]? = some (fname, off.toNat) := by
  obtain ⟨hhit, hkeep⟩ := h.cache.getx fname
  cases hf : (sb.openFilesCache.getx fname).1 with
  | some info =>
    obtain ⟨rfl, pos, hpos⟩ := hhit info hf
    refine ⟨{ sb with
      openFilesCache := (sb.openFilesCache.getx info.fname).2
      currentFile := info
      os := ⟨sb.os.fds.modify info.fd fun p => (p.1, off.toNat), sb.os.reads⟩ }, ?_,
      ⟨h.files, h.bufsize, ?_⟩, havail, rfl, by simp [hpos]⟩
    · simp [setCurrentFile, hf, bind_run, lseek]
    · exact hkeep.imp fun k info hi => ⟨hi.1, hi.2.modify _ _ _⟩
  | none =>
    have hcache : ((sb.openFilesCache.getx fname).2.put fname ⟨fname, sb.os.fds.length⟩).All
        fun fname' info => info.fname = fname' ∧
          Os.Open ⟨sb.os.fds ++ [(fname, 0)], sb.os.reads⟩ info := by
      refine Cache.All.put (hkeep.imp fun k info hi => ⟨hi.1, hi.2.append _ _⟩) ⟨rfl, 0, ?_⟩
      simp
    by_cases hoff : off = 0
    · refine ⟨{ sb with
        openFilesCache := (sb.openFilesCache.getx fname).2.put fname ⟨fname, sb.os.fds.length⟩
        currentFile := ⟨fname, sb.os.fds.length⟩
        os := ⟨sb.os.fds ++ [(fname, 0)], sb.os.reads⟩ }, ?_,
        ⟨h.files, h.bufsize, hcache⟩, havail, rfl, by simp [hoff]⟩
      simp [setCurrentFile, hf, bind_run, newOpenfileInfo_spec hexists, hoff]
    · refine ⟨{ sb with
        openFilesCache := (sb.openFilesCache.getx fname).2.put fname ⟨fname, sb.os.fds.length⟩
        currentFile := ⟨fname, sb.os.fds.length⟩
        os := ⟨(sb.os.fds ++ [(fname, 0)]).modify sb.os.fds.length fun p => (p.1, off.toNat),
          sb.os.reads⟩ }, ?_, ⟨h.files, h.bufsize, ?_⟩, havail, rfl, by simp⟩
      · simp [setCurrentFile, hf, bind_run, newOpenfileInfo_spec hexists, hoff, lseek]
      · exact hcache.imp fun k info hi => ⟨hi.1, hi.2.modify _ _ _⟩

/-- The loop finds the file behind the current one. -/
theorem nextFile_eq {front later : List Bytes} {fname : Bytes}
    (h : (front ++ fname :: later).Nodup) :
    nextFile fname ((front ++ fname :: later).map (fileInfo fs)) =
      later.head?.map (fileInfo fs) := by
  induction front with
  | nil => simp [nextFile, fileInfo]
  | cons n front ih =>
    rw [List.cons_append, List.nodup_cons] at h
    have hne : n ≠ fname := by
      rintro rfl
      exact h.1 (by simp)
    have hname : (fileInfo fs n).fname ≠ fname := hne
    rw [List.cons_append, List.map_cons, nextFile, if_neg hname,
      ih h.2]

theorem readFd_spec {fd : ℕ} {fname : Bytes} {pos : ℕ} (h : sb.os.fds[fd]? = some (fname, pos))
    (hsize : 0 < sb.bufsize) :
    ∃ bs, readFd fs chosen fd sb.bufsize.toNat sb = .ok bs
        { sb with os := ⟨sb.os.fds.modify fd fun p => (p.1, pos + bs.length), sb.os.reads + 1⟩ } ∧
      (fileBytes fs fname).drop pos = bs ++ (fileBytes fs fname).drop (pos + bs.length) ∧
      (bs = [] → (fileBytes fs fname).drop pos = []) := by
  have hpos : sb.bufsize.toNat ≠ 0 := by
    have := UInt32.lt_iff_toNat_lt.mp hsize
    simp only [UInt32.toNat_zero] at this
    omega
  refine ⟨((fileBytes fs fname).drop pos).take
    (max 1 (min (chosen sb.os.reads) (min sb.bufsize.toNat 0x7ffff000))), ?_, ?_, ?_⟩
  · simp [readFd, h, bind_run, map_run, hpos]
  · rw [← List.drop_drop, List.length_take]
    conv_lhs => rw [← List.take_append_drop
      (max 1 (min (chosen sb.os.reads) (min sb.bufsize.toNat 0x7ffff000)))
      ((fileBytes fs fname).drop pos)]
    rcases Nat.le_total (max 1 (min (chosen sb.os.reads) (min sb.bufsize.toNat 0x7ffff000)))
      ((fileBytes fs fname).drop pos).length with hle | hle
    · rw [Nat.min_eq_left hle]
    · rw [Nat.min_eq_right hle, List.drop_length, List.drop_eq_nil_of_le hle]
  · intro hnil
    rcases List.take_eq_nil_iff.mp hnil with h | h
    · omega
    · exact h

/-- At the end of the buffer the next bytes are fetched, from the next part that has any. -/
theorem underflowLoop_spec (hnodup : names.Nodup) (hexists : ∀ n ∈ names, (fs n).isSome)
    (turns : ℕ) {front later : List Bytes} {pos : ℕ} (h : Ready fs names sb)
    (havail : sb.avail = []) (hnames : names = front ++ sb.currentFile.fname :: later)
    (hpos : sb.os.fds[sb.currentFile.fd]? = some (sb.currentFile.fname, pos))
    (hturns : later.length < turns)
    (hrest : rest = (fileBytes fs sb.currentFile.fname).drop pos ++
      later.flatMap (fileBytes fs)) :
    ∃ more sb', underflowLoop fs chosen turns sb = .ok more sb' ∧ Reads fs names sb' rest ∧
      (more = true → sb'.avail ≠ []) ∧ (more = false → rest = []) := by
  induction turns generalizing front later pos sb with
  | zero => omega
  | succ turns ih =>
    obtain ⟨bs, hread, hdrop, hnil⟩ := @readFd_spec fs chosen _ _ _ _ hpos h.bufsize
    have hcache := h.cache.imp fun k info hi => And.intro hi.1
      (hi.2.modify sb.currentFile.fd (pos + bs.length) (sb.os.reads + 1))
    have hpos' : (sb.os.fds.modify sb.currentFile.fd fun p => (p.1, pos + bs.length))[
        sb.currentFile.fd]? = some (sb.currentFile.fname, pos + bs.length) := by
      simp [hpos]
    cases bs with
    | cons ch bs =>
      refine ⟨true, { sb with
        avail := ch :: bs
        os := ⟨sb.os.fds.modify sb.currentFile.fd fun p => (p.1, pos + (ch :: bs).length),
          sb.os.reads + 1⟩ }, ?_,
        ⟨⟨h.files, h.bufsize, hcache⟩, front, later, _, hnames, hpos', ?_⟩,
        by simp, by simp⟩
      · simp [underflowLoop, bind_run, map_run, hread]
      · rw [hrest, hdrop, List.append_assoc]
    | nil =>
      have hend := hnil rfl
      set sb₁ : Streambuf := { sb with
        os := ⟨sb.os.fds.modify sb.currentFile.fd fun p => (p.1, pos + ([] : Bytes).length),
          sb.os.reads + 1⟩ } with hsb₁
      have hready : Ready fs names sb₁ := ⟨h.files, h.bufsize, hcache⟩
      have hnext : nextFile sb₁.currentFile.fname sb₁.files = later.head?.map (fileInfo fs) := by
        rw [hready.files, hnames]
        exact nextFile_eq (hnames ▸ hnodup)
      cases later with
      | nil =>
        refine ⟨false, sb₁, ?_, ⟨hready, front, [], _, hnames, hpos', ?_⟩, by simp, ?_⟩
        · simp only [underflowLoop, bind_run, get_run, hread]
          simp [bind_run, hnext]
        · simp [hrest, hend, havail, hsb₁]
        · simp [hrest, hend]
      | cons n later =>
        obtain ⟨sb₂, hset, hready₂, havail₂, hname₂, hpos₂⟩ := setCurrentFile_spec hready havail
          (hexists n (by simp [hnames])) 0
        obtain ⟨more, sb', hloop, hreads⟩ := @ih sb₂ (front ++ [sb.currentFile.fname]) later 0
          hready₂ havail₂ (by simp [hnames, hname₂]) (by simpa [hname₂] using hpos₂)
          (by simpa using hturns) (by simp [hrest, hend, hname₂])
        refine ⟨more, sb', ?_, hreads⟩
        simp only [underflowLoop, bind_run, get_run, hread]
        simp [hnext, fileInfo, bind_run, hset, hloop]

theorem sbumpc_spec (hnodup : names.Nodup) (hexists : ∀ n ∈ names, (fs n).isSome)
    (h : Reads fs names sb rest) :
    ∃ sb', sbumpc fs chosen sb = .ok rest.head? sb' ∧ Reads fs names sb' rest.tail := by
  have hpop : ∀ {sb : Streambuf} {ch : UInt8} {bs : Bytes}, Reads fs names sb rest →
      sb.avail = ch :: bs → rest.head? = some ch ∧
        Reads fs names { sb with avail := bs } rest.tail := by
    intro sb ch bs h havail
    obtain ⟨hready, front, later, pos, hnames, hpos, hrest⟩ := h
    rw [havail] at hrest
    subst hrest
    exact ⟨rfl, ⟨hready.files, hready.bufsize, hready.cache⟩, front, later, pos, hnames, hpos, rfl⟩
  cases havail : sb.avail with
  | cons ch bs =>
    obtain ⟨hhead, hreads⟩ := hpop h havail
    exact ⟨_, by simp [sbumpc, bind_run, map_run, havail, hhead], hreads⟩
  | nil =>
    obtain ⟨hready, front, later, pos, hnames, hpos, hrest⟩ := h
    have hlater : later.length < sb.files.length + 1 := by
      rw [hready.files, hnames, List.length_map, List.length_append, List.length_cons]
      omega
    rw [havail, List.nil_append] at hrest
    obtain ⟨more, sb₁, hloop, hreads, hmore, hend⟩ := underflowLoop_spec chosen hnodup
      hexists _ hready havail hnames hpos hlater hrest
    have hunder : underflow fs chosen sb = .ok more sb₁ := by
      simp only [underflow, bind_run, get_run, hloop]
    cases more with
    | false =>
      obtain rfl := hend rfl
      exact ⟨sb₁, by simp [sbumpc, bind_run, havail, hunder], hreads⟩
    | true =>
      obtain ⟨ch, bs, havail₁⟩ := List.exists_cons_of_ne_nil (hmore rfl)
      obtain ⟨hhead, hreads⟩ := hpop hreads havail₁
      exact ⟨_, by simp [sbumpc, bind_run, map_run, havail, hunder, havail₁, hhead], hreads⟩

/-- Reading delivers the next bytes, and fewer than asked for at the end only. -/
theorem sgetn_spec (hnodup : names.Nodup) (hexists : ∀ n ∈ names, (fs n).isSome) (n : ℕ)
    (h : Reads fs names sb rest) :
    ∃ sb', sgetn fs chosen n sb = .ok (rest.take n) sb' ∧ Reads fs names sb' (rest.drop n) := by
  induction n generalizing sb rest with
  | zero => exact ⟨sb, rfl, h⟩
  | succ n ih =>
    obtain ⟨sb₁, hget, h₁⟩ := sbumpc_spec chosen hnodup hexists h
    cases rest with
    | nil => exact ⟨sb₁, by simp [sgetn, bind_run, hget], h₁⟩
    | cons ch rest =>
      obtain ⟨sb', hrec, h'⟩ := ih h₁
      simp only [List.tail_cons] at hrec h'
      exact ⟨sb', by simp [sgetn, bind_run, map_run, hget, hrec], h'⟩

/-- An offset of the whole lies in one of the parts, at its end if that is followed by others. -/
theorem seekFile_inside {off : UInt64} (hne : names ≠ [])
    (hoff : off.toNat ≤ (names.flatMap (fileBytes fs)).length) :
    ∃ front n later o, names = front ++ n :: later ∧
      seekFile (names.map (fileInfo fs)) off = some (fileInfo fs n, o) ∧
      (names.flatMap (fileBytes fs)).drop off.toNat =
        (fileBytes fs n).drop o.toNat ++ later.flatMap (fileBytes fs) := by
  induction names generalizing off with
  | nil => exact absurd rfl hne
  | cons n names ih =>
    rw [List.flatMap_cons, List.length_append] at hoff
    have hsize : (fileInfo fs n).fsize.toNat = (fileBytes fs n).length := fsize_toNat n
    by_cases hlt : (fileInfo fs n).fsize < off
    · have hlt' := UInt64.lt_iff_toNat_lt.mp hlt
      have hsub : (off - (fileInfo fs n).fsize).toNat = off.toNat - (fileBytes fs n).length := by
        rw [UInt64.toNat_sub_of_le _ _ (UInt64.le_of_lt hlt), hsize]
      have hne' : names ≠ [] := by
        rintro rfl
        simp only [List.flatMap_nil, List.length_nil] at hoff
        omega
      obtain ⟨front, m, later, o, rfl, hseek, hdrop⟩ := @ih (off - (fileInfo fs n).fsize) hne'
        (by omega)
      refine ⟨n :: front, m, later, o, rfl, ?_, ?_⟩
      · rw [List.map_cons, seekFile, if_pos hlt, hseek]
      · rw [List.flatMap_cons, List.drop_append, List.drop_eq_nil_of_le (by omega),
          List.nil_append, ← hdrop, hsub]
    · have hle : off.toNat ≤ (fileBytes fs n).length := by
        have := UInt64.le_iff_toNat_le.mp (UInt64.not_lt.mp hlt)
        omega
      refine ⟨[], n, names, off, rfl, ?_, ?_⟩
      · rw [List.map_cons, seekFile, if_neg hlt]
      · rw [List.flatMap_cons, List.drop_append_of_le_length hle]

theorem seekFile_outside {off : UInt64}
    (hoff : (names.flatMap (fileBytes fs)).length < off.toNat) :
    seekFile (names.map (fileInfo fs)) off = none := by
  induction names generalizing off with
  | nil => rfl
  | cons n names ih =>
    rw [List.flatMap_cons, List.length_append] at hoff
    have hsize : (fileInfo fs n).fsize.toNat = (fileBytes fs n).length := fsize_toNat n
    have hlt : (fileInfo fs n).fsize < off := UInt64.lt_iff_toNat_lt.mpr (by omega)
    rw [List.map_cons, seekFile, if_pos hlt, ih]
    rw [UInt64.toNat_sub_of_le _ _ (UInt64.le_of_lt hlt)]
    omega

theorem seekg_inside (hne : names ≠ []) (hexists : ∀ n ∈ names, (fs n).isSome)
    (h : Ready fs names sb) {off : UInt64}
    (hoff : off.toNat ≤ (names.flatMap (fileBytes fs)).length) :
    ∃ sb', seekg fs off sb = .ok ⟨⟩ sb' ∧
      Reads fs names sb' ((names.flatMap (fileBytes fs)).drop off.toNat) := by
  obtain ⟨front, n, later, o, hnames, hseek, hdrop⟩ := seekFile_inside hne hoff
  set sb₁ : Streambuf := { sb with avail := [], currentPos := off }
  have hready : Ready fs names sb₁ := ⟨h.files, h.bufsize, h.cache⟩
  obtain ⟨sb', hset, hready', havail, hname, hpos⟩ := setCurrentFile_spec hready rfl
    (hexists n (by simp [hnames])) o
  refine ⟨sb', ?_, hready', front, later, o.toNat, by rw [hname, hnames], by rw [hname, hpos],
    by rw [hdrop, havail, hname, List.nil_append]⟩
  have hfile : seekFile sb.files off = some (fileInfo fs n, o) := by rw [h.files, hseek]
  simp only [seekg, bind_run, modify_run, get_run, hfile]
  exact hset

theorem seekg_outside (h : Ready fs names sb) {off : UInt64}
    (hoff : (names.flatMap (fileBytes fs)).length < off.toNat) :
    ∃ sb', seekg fs off sb = .error (.seeking off) sb' ∧ Ready fs names sb' := by
  have hfiles : sb.files = names.map (fileInfo fs) := h.files
  refine ⟨{ sb with avail := [], currentPos := off }, ?_, h.files, h.bufsize, h.cache⟩
  simp only [seekg, bind_run, modify_run, get_run, hfiles, seekFile_outside hoff, throw_run]

section Runs
variable (fs : Bytes → Option Content) (chosen : ℕ → ℕ)

def readAll : List ℕ → M (List Bytes)
  | [] => return []
  | n :: ns => do
    let bs ← sgetn fs chosen n
    let more ← readAll ns
    return bs :: more

/-- A call of `seekg` and the reads behind it, which an exception of `seekg` leaves out. -/
def access (off : UInt64) (ns : List ℕ) : M (List Bytes) := do
  seekg fs off
  readAll fs chosen ns

def run (sb : Streambuf) : List (UInt64 × List ℕ) → List (Except StreambufError (List Bytes))
  | [] => []
  | (off, ns) :: ops =>
    match access fs chosen off ns sb with
    | .ok out sb => .ok out :: run sb ops
    | .error err sb => .error err :: run sb ops

end Runs

/-- What reads of the given lengths deliver one after another. -/
def slices : Bytes → List ℕ → List Bytes
  | _, [] => []
  | rest, n :: ns => rest.take n :: slices (rest.drop n) ns

/-- The outcome of an access to a single file. -/
def single (whole : Bytes) (op : UInt64 × List ℕ) : Except StreambufError (List Bytes) :=
  if op.1.toNat ≤ whole.length then .ok (slices (whole.drop op.1.toNat) op.2)
  else .error (.seeking op.1)

theorem readAll_spec (hnodup : names.Nodup) (hexists : ∀ n ∈ names, (fs n).isSome)
    (ns : List ℕ) (h : Reads fs names sb rest) :
    ∃ sb', readAll fs chosen ns sb = .ok (slices rest ns) sb' ∧ Ready fs names sb' := by
  induction ns generalizing sb rest with
  | nil => exact ⟨sb, rfl, h.toReady⟩
  | cons n ns ih =>
    obtain ⟨sb₁, hget, h₁⟩ := sgetn_spec chosen hnodup hexists n h
    obtain ⟨sb', hrec, h'⟩ := ih h₁
    exact ⟨sb', by simp [readAll, slices, bind_run, map_run, hget, hrec], h'⟩

theorem run_eq (hne : names ≠ []) (hnodup : names.Nodup)
    (hexists : ∀ n ∈ names, (fs n).isSome) (ops : List (UInt64 × List ℕ))
    (h : Ready fs names sb) :
    run fs chosen sb ops = ops.map (single (names.flatMap (fileBytes fs))) := by
  induction ops generalizing sb with
  | nil => rfl
  | cons op ops ih =>
    obtain ⟨off, ns⟩ := op
    by_cases hoff : off.toNat ≤ (names.flatMap (fileBytes fs)).length
    · obtain ⟨sb₁, hseek, h₁⟩ := seekg_inside hne hexists h hoff
      obtain ⟨sb₂, hread, h₂⟩ := readAll_spec chosen hnodup hexists ns h₁
      have haccess : access fs chosen off ns sb =
          .ok (slices ((names.flatMap (fileBytes fs)).drop off.toNat) ns) sb₂ := by
        rw [access, bind_ok hseek, hread]
      simp only [run, haccess, List.map_cons, single, if_pos hoff, ih h₂]
    · obtain ⟨sb₁, hseek, h₁⟩ := seekg_outside h (Nat.lt_of_not_le hoff)
      have haccess : access fs chosen off ns sb = .error (.seeking off) sb₁ := by
        rw [access, bind_error hseek]
      simp only [run, haccess, List.map_cons, single, if_neg hoff, ih h₁]

end Streambuf

section Constructor
variable (fs : Bytes → Option Content)

/-- The parts of an archive: one file of its name, or those with the suffixes up to the first
that is missing. -/
def parts (fname : Bytes) : List Bytes :=
  if (fs fname).isSome then [fname] else (partNames fname).takeWhile fun n => (fs n).isSome

/-- The concatenation of the parts. -/
def archive (fname : Bytes) : Bytes := (parts fs fname).flatMap (Streambuf.fileBytes fs)

theorem partNames_nodup (fname : Bytes) : (partNames fname).Nodup := by
  have hletters : letters.Nodup := by decide
  refine List.Nodup.map ?_ (List.Nodup.product hletters hletters)
  rintro ⟨a, b⟩ ⟨c, d⟩ h
  simpa using h

theorem parts_nodup (fname : Bytes) : (parts fs fname).Nodup := by
  unfold parts
  split_ifs
  · simp
  · exact (partNames_nodup fname).sublist (List.takeWhile_sublist _)

theorem parts_exist (fname : Bytes) : ∀ n ∈ parts fs fname, (fs n).isSome := by
  intro n hn
  unfold parts at hn
  split_ifs at hn with h
  · rwa [List.mem_singleton.mp hn]
  · exact List.mem_takeWhile_imp (p := fun n => (fs n).isSome) hn

/-- The parts opened so far, with their sizes, are all in use. -/
structure Opened.Holds (s : Opened) (names : List Bytes) : Prop where
  files : s.files = names.map (Streambuf.fileInfo fs)
  cache : s.openFilesCache.All fun fname info => info.fname = fname ∧ s.os.Open info
  current : names ≠ [] → s.currentFile.isSome

variable {fs}

theorem Opened.openPart_spec {s : Opened} {names : List Bytes} (h : s.Holds fs names) {n : Bytes}
    (hn : (fs n).isSome) : ∃ s', s.openPart fs n = some s' ∧ s'.Holds fs (names ++ [n]) := by
  obtain ⟨content, hcontent⟩ := Option.isSome_iff_exists.mp hn
  refine ⟨_, by rw [Opened.openPart, hcontent]; rfl, ?_, ?_, fun _ => rfl⟩
  · simp [h.files, Streambuf.fileInfo, Streambuf.fileBytes, hcontent]
  · refine Cache.All.put (h.cache.imp fun k info hi => ⟨hi.1, hi.2.append _ _⟩) ⟨rfl, ?_⟩
    exact ⟨content.val.length, by simp⟩

theorem Opened.openParts_spec {s : Opened} {names : List Bytes} (h : s.Holds fs names)
    (more : List Bytes) :
    (s.openParts fs more).Holds fs (names ++ more.takeWhile fun n => (fs n).isSome) := by
  induction more generalizing s names with
  | nil => simpa [Opened.openParts] using h
  | cons n more ih =>
    by_cases hn : (fs n).isSome
    · obtain ⟨s', hopen, h'⟩ := Opened.openPart_spec h hn
      simpa [Opened.openParts, hopen, List.takeWhile_cons, hn] using ih h'
    · have hnone : s.openPart fs n = none := by
        rw [Opened.openPart, Option.not_isSome_iff_eq_none.mp hn]
        rfl
      simpa [Opened.openParts, hnone, List.takeWhile_cons, hn] using h

theorem Opened.openFiles_spec (fname : Bytes) (noOpenFiles : UInt32) :
    (Opened.openFiles fs fname noOpenFiles).Holds fs (parts fs fname) := by
  have hempty : Opened.Holds fs ⟨[], .new noOpenFiles.toNat, none, ⟨[], 0⟩⟩ [] :=
    ⟨rfl, Cache.all_new _, fun h => absurd rfl h⟩
  unfold parts Opened.openFiles
  by_cases hn : (fs fname).isSome
  · obtain ⟨s, hopen, h⟩ := Opened.openPart_spec hempty hn
    simpa only [hopen, if_pos hn, List.nil_append] using h
  · have hnone : Opened.openPart fs ⟨[], .new noOpenFiles.toNat, none, ⟨[], 0⟩⟩ fname = none := by
      rw [Opened.openPart, Option.not_isSome_iff_eq_none.mp hn]
      rfl
    simpa only [hnone, if_neg hn, List.nil_append] using Opened.openParts_spec hempty _

namespace Streambuf

/-- The constructor succeeds if there is a part. -/
theorem new_ready {fname : Bytes} {bufsize : UInt32} (noOpenFiles : UInt32)
    (hsize : 0 < bufsize) (hparts : parts fs fname ≠ []) :
    ∃ sb, Streambuf.new fs fname bufsize noOpenFiles = .ok sb ∧
      Ready fs (parts fs fname) sb := by
  have hopened : (Opened.openFiles fs fname noOpenFiles).Holds fs (parts fs fname) :=
    Opened.openFiles_spec fname noOpenFiles
  obtain ⟨currentFile, hcurrent⟩ := Option.isSome_iff_exists.mp (hopened.current hparts)
  obtain ⟨n, names, hnames⟩ := List.exists_cons_of_ne_nil hparts
  have hfiles : (Opened.openFiles fs fname noOpenFiles).files =
      fileInfo fs n :: names.map (fileInfo fs) := by
    rw [hopened.files, hnames, List.map_cons]
  have hready : Ready fs (parts fs fname) ⟨bufsize, fileInfo fs n :: names.map (fileInfo fs),
      (Opened.openFiles fs fname noOpenFiles).openFilesCache, currentFile, 0, [],
      (Opened.openFiles fs fname noOpenFiles).os⟩ :=
    ⟨by rw [hnames, List.map_cons], hsize, hopened.cache⟩
  obtain ⟨sb, hset, hsb, -⟩ := setCurrentFile_spec hready rfl
    (parts_exist fs fname n (by simp [hnames])) 0
  refine ⟨sb, ?_, hsb⟩
  simp only [Streambuf.new, hcurrent, hfiles]
  rw [show (fileInfo fs n).fname = n from rfl, hset]

/-- Every sequence of seeks and reads has the same outcome as on one file with the
concatenated parts. -/
theorem reads_archive (fs : Bytes → Option Content) (chosen : ℕ → ℕ) (fname : Bytes)
    (bufsize noOpenFiles : UInt32) (hsize : 0 < bufsize) (hparts : parts fs fname ≠ [])
    (ops : List (UInt64 × List ℕ)) :
    ∃ sb, Streambuf.new fs fname bufsize noOpenFiles = .ok sb ∧
      run fs chosen sb ops = ops.map (single (archive fs fname)) := by
  obtain ⟨sb, hnew, hready⟩ := new_ready noOpenFiles hsize hparts
  exact ⟨sb, hnew, run_eq chosen hparts (parts_nodup fs fname) (parts_exist fs fname) ops hready⟩

/-- Parts of two, no and one bytes, with a cache of one file. -/
theorem reads_archive_three :
    let fs : Bytes → Option Content := fun n =>
      if n = [0x7a, 0x61, 0x61] then some ⟨[1, 2], by decide⟩
      else if n = [0x7a, 0x61, 0x62] then some ⟨[], by decide⟩
      else if n = [0x7a, 0x61, 0x63] then some ⟨[3], by decide⟩
      else none
    ∃ sb, Streambuf.new fs [0x7a] 2 1 = .ok sb ∧
      run fs (fun _ => 1) sb [(1, [1, 5]), (2, [2]), (4, [1])] =
        [.ok [[2], [3]], .ok [[3]], .error (.seeking 4)] :=
  reads_archive _ (fun _ => 1) [0x7a] 2 1 (by decide) (by decide) [(1, [1, 5]), (2, [2]), (4, [1])]

end Streambuf
end Constructor
end Zim
