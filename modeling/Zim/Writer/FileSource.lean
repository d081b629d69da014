import Zim.Lib.Enumeration
import Zim.Lib.Streams

/-! `zim::writer::FileSource` (filesource.h, filesource.cpp): the files of a directory. -/
namespace Zim.Writer
open Cxx

/-- The entries that a `cxxtools::DirectoryIterator` has in front of it, each with its `path()` and
a directory with the entries of its own. A file has the answer of `FileInfo::isFile`. -/
inductive DirectoryIterator where
  | atEnd
  | dot (rest : DirectoryIterator)
  | dotdot (rest : DirectoryIterator)
  | file (path : Bytes) (isFile : Bool) (rest : DirectoryIterator)
  | directory (path : Bytes) (entries rest : DirectoryIterator)
  deriving DecidableEq, Repr

namespace DirectoryIterator

/-- `++it`. -/
def next : DirectoryIterator → DirectoryIterator
  | atEnd => atEnd
  | dot rest => rest
  | dotdot rest => rest
  | file _ _ rest => rest
  | directory _ _ rest => rest

/-- The entries that are no directories, with those of the directories among the others. -/
def files : DirectoryIterator → List Bytes
  | atEnd => []
  | dot rest => rest.files
  | dotdot rest => rest.files
  | file path _ rest => path :: rest.files
  | directory _ entries rest => entries.files ++ rest.files

def dots : DirectoryIterator → ℕ
  | atEnd => 0
  | dot rest => rest.dots + 1
  | dotdot rest => rest.dots
  | file _ _ rest => rest.dots
  | directory _ _ rest => rest.dots

def dotdots : DirectoryIterator → ℕ
  | atEnd => 0
  | dot rest => rest.dotdots
  | dotdot rest => rest.dotdots + 1
  | file _ _ rest => rest.dotdots
  | directory _ _ rest => rest.dotdots

/-- Each directory among the entries has `.` and `..` once. -/
def Complete : DirectoryIterator → Prop
  | atEnd => True
  | dot rest => rest.Complete
  | dotdot rest => rest.Complete
  | file _ _ rest => rest.Complete
  | directory _ entries rest =>
    entries.dots = 1 ∧ entries.dotdots = 1 ∧ entries.Complete ∧ rest.Complete

/-- An upper bound for the turns of the loop over these entries. -/
def turns : DirectoryIterator → ℕ
  | atEnd => 1
  | dot rest => rest.turns + 1
  | dotdot rest => rest.turns + 1
  | file _ _ rest => rest.turns + 1
  | directory _ entries rest => entries.turns + rest.turns + 1

end DirectoryIterator

/-- A `cxxtools::Directory` with all that its iterator and those of its subdirectories come to. -/
structure Directory where
  dirName : Bytes
  entries : DirectoryIterator
  dots : entries.dots = 1
  dotdots : entries.dotdots = 1
  complete : entries.Complete
  /-- The paths begin with the name of the directory. -/
  below : ∀ path ∈ entries.files, dirName <+: path

structure FileArticle where
  ns : UInt8
  path : Bytes
  fname : Bytes
  deriving DecidableEq, Repr

namespace FileArticle

def getAid (a : FileArticle) : Bytes := a.path
def getNamespace (a : FileArticle) : UInt8 := a.ns
def getUrl (a : FileArticle) : Bytes := a.fname

end FileArticle

/-- The stack `current` has its top in front. -/
structure FileSource where
  current : List DirectoryIterator
  dirName : Bytes
  deriving DecidableEq, Repr

namespace FileSource

/-- `FileArticle('A', dirName + f, f)`. -/
def article (dirName path : Bytes) : FileArticle :=
  let f := path.drop dirName.length
  ⟨0x41, dirName ++ f, f⟩

/-- An iterator behind the top one is still at the directory that the one before it lists. -/
def stackTurns : List DirectoryIterator → ℕ
  | [] => 0
  | top :: below => top.turns + (below.map fun it => it.next.turns).sum

def advanceStack (dirName : Bytes) :
    List DirectoryIterator → Option FileArticle × List DirectoryIterator
  -- The stack is not empty where `advance` is called.
  | [] => (none, [])
  | [.atEnd] => (none, [])
  | .atEnd :: top :: current => advanceStack dirName (top.next :: current)
  | .dot rest :: current => advanceStack dirName (rest :: current)
  | .dotdot rest :: current => advanceStack dirName (rest :: current)
  | .directory path entries rest :: current =>
    advanceStack dirName (entries :: .directory path entries rest :: current)
  | .file path isFile rest :: current =>
    (some (article dirName path), .file path isFile rest :: current)
  termination_by current => stackTurns current
  decreasing_by
  · simp [stackTurns, DirectoryIterator.turns]
  · simp [stackTurns, DirectoryIterator.turns]
  · simp [stackTurns, DirectoryIterator.turns]
  · simp only [stackTurns, DirectoryIterator.turns, DirectoryIterator.next, List.map_cons,
      List.sum_cons]
    omega

def advance (s : FileSource) : Option FileArticle × FileSource :=
  let (a, current) := advanceStack s.dirName s.current
  (a, { s with current })

/-- `fi.isFile()` for the entry at the top of the stack. -/
def topIsFile (s : FileSource) : Bool :=
  match s.current with
  | .file _ isFile _ :: _ => isFile
  | _ => false

/-- `FileSource(path)` with the directory of this path. -/
def new (dir : Directory) : FileSource :=
  let s : FileSource := ⟨[dir.entries], dir.dirName⟩
  if s.topIsFile then s else s.advance.2

def getNextArticle (s : FileSource) : Option FileArticle × FileSource :=
  match s.current with
  | [] => (none, s)
  | top :: current => { s with current := top.next :: current }.advance

/-- The articles that are returned by calls of `getNextArticle` until it returns 0. -/
def Articles : FileSource → List FileArticle → Prop :=
  Enumeration.Returns fun s a t => s.getNextArticle = (a, t)

/-- Each entry below the root that is no directory is returned once. -/
def Enumerates (dir : Directory) : Prop :=
  ∃ articles, Articles (new dir) articles ∧
    (articles.map FileArticle.getAid).Perm dir.entries.files

/-- The files that are not passed yet, with the one at the top. -/
def pending : List DirectoryIterator → List Bytes
  | [] => []
  | top :: below => top.files ++ below.flatMap fun it => it.next.files

/-- The states between two calls: nothing is left, or the top is at a file. -/
def AtFile (s : FileSource) : Prop :=
  s.current = [] ∨ ∃ path isFile rest current,
    s.current = .file path isFile rest :: current

section Walk
variable {dirName : Bytes}

/-- The loop goes on to the next file, or to the end where none is left. -/
theorem advanceStack_cases (current : List DirectoryIterator) :
    pending current = [] ∧ advanceStack dirName current = (none, []) ∨
      ∃ path isFile rest below, advanceStack dirName current =
          (some (article dirName path), .file path isFile rest :: below) ∧
        pending (.file path isFile rest :: below) = pending current := by
  fun_induction advanceStack dirName current with
  | case1 => exact .inl ⟨rfl, rfl⟩
  | case2 => exact .inl ⟨rfl, rfl⟩
  | case3 top current ih => simpa [pending, DirectoryIterator.files] using ih
  | case4 rest current ih => simpa [pending, DirectoryIterator.files] using ih
  | case5 rest current ih => simpa [pending, DirectoryIterator.files] using ih
  | case6 path entries rest current ih =>
    simpa [pending, DirectoryIterator.files, DirectoryIterator.next] using ih
  | case7 path isFile rest current => exact .inr ⟨path, isFile, rest, current, rfl, rfl⟩

theorem advance_cases (s : FileSource) :
    pending s.current = [] ∧ s.advance = (none, { s with current := [] }) ∨
      ∃ path t, s.advance = (some (article s.dirName path), t) ∧ AtFile t ∧
        t.dirName = s.dirName ∧ pending t.current = pending s.current ∧
        (pending s.current).head? = some path := by
  obtain ⟨hnone, hadv⟩ | ⟨path, isFile, rest, below, hadv, hpending⟩ :=
    @advanceStack_cases s.dirName s.current
  · exact .inl ⟨hnone, by rw [advance, hadv]⟩
  · refine .inr ⟨path, { s with current := .file path isFile rest :: below }, ?_,
      .inr ⟨path, isFile, rest, below, rfl⟩, rfl, hpending, ?_⟩
    · rw [advance, hadv]
    · rw [← hpending]
      rfl

end Walk

section Enumerate
variable (dir : Directory)

/-- The constructor stops at the first file. -/
theorem new_atFile : AtFile (new dir) ∧ (new dir).dirName = dir.dirName ∧
    pending (new dir).current = dir.entries.files := by
  have hroot : pending [dir.entries] = dir.entries.files := List.append_nil _
  rw [new]
  cases htop : topIsFile ⟨[dir.entries], dir.dirName⟩ with
  | true =>
    rw [if_pos rfl]
    refine ⟨.inr ?_, rfl, hroot⟩
    unfold topIsFile at htop
    split at htop
    · next heq => exact ⟨_, _, _, _, heq⟩
    · cases htop
  | false =>
    rw [if_neg Bool.false_ne_true]
    obtain ⟨hnone, hadv⟩ | ⟨path, t, hadv, hat, hname, hpending, -⟩ :=
      advance_cases ⟨[dir.entries], dir.dirName⟩
    · rw [hadv]
      exact ⟨.inl rfl, rfl, by rw [← hroot, hnone]; rfl⟩
    · rw [hadv]
      exact ⟨hat, hname, hpending.trans hroot⟩

/-- A call steps over the file at the top before it looks for the next one. -/
theorem getNextArticle_cases {s : FileSource} (hs : AtFile s) :
    (pending s.current).tail = [] ∧ (∃ t, s.getNextArticle = (none, t)) ∨
      ∃ path t, s.getNextArticle = (some (article s.dirName path), t) ∧ AtFile t ∧
        t.dirName = s.dirName ∧ pending t.current = (pending s.current).tail ∧
        (pending s.current).tail.head? = some path := by
  obtain ⟨current, dirName⟩ := s
  obtain rfl | ⟨path, isFile, rest, below, rfl⟩ := hs
  · exact .inl ⟨rfl, _, rfl⟩
  · obtain ⟨hnone, hadv⟩ | hsome := advance_cases ⟨rest :: below, dirName⟩
    · exact .inl ⟨hnone, _, hadv⟩
    · exact .inr hsome

/-- The first file is never returned, every other one is. -/
theorem articles_new :
    Articles (new dir) (dir.entries.files.tail.map (article dir.dirName)) := by
  obtain ⟨hat, hname, hpending⟩ := new_atFile dir
  rw [← hpending]
  refine Enumeration.returns_of_pending
    (fun s => AtFile s ∧ s.dirName = dir.dirName)
    (fun s => (pending s.current).tail.map (article dir.dirName)) ?_ ?_ ⟨hat, hname⟩
  · intro s ⟨hs, hdir⟩ hnone
    obtain ⟨-, hend⟩ | ⟨path, t, -, -, -, -, hhead⟩ := getNextArticle_cases hs
    · exact hend
    · rw [List.map_eq_nil_iff.mp hnone] at hhead
      cases hhead
  · intro s a as ⟨hs, hdir⟩ hsome
    obtain ⟨hend, -⟩ | ⟨path, t, hnext, ht, hdir', hrest, hhead⟩ := getNextArticle_cases hs
    · rw [hend] at hsome
      cases hsome
    · obtain ⟨q, qs, htail, rfl, rfl⟩ := List.map_eq_cons_iff.mp hsome
      rw [htail] at hhead hrest
      cases hhead
      exact ⟨t, hdir ▸ hnext, ⟨ht, hdir'.trans hdir⟩, by rw [hrest]; rfl⟩

theorem getAid_article {path : Bytes} (h : dir.dirName <+: path) :
    (article dir.dirName path).getAid = path := by
  obtain ⟨f, rfl⟩ := h
  simp [article, FileArticle.getAid]

theorem aids_new : (dir.entries.files.tail.map (article dir.dirName)).map FileArticle.getAid =
    dir.entries.files.tail := by
  rw [List.map_map]
  refine (List.map_congr_left fun path hpath => ?_).trans (List.map_id _)
  exact getAid_article dir (dir.below path (List.mem_of_mem_tail hpath))

theorem files_eq_nil (h : Enumerates dir) : dir.entries.files = [] := by
  obtain ⟨articles, harticles, hperm⟩ := h
  obtain rfl := (articles_new dir).unique (fun h h' => by simpa using h.symm.trans h') harticles
  have hlen := hperm.length_eq
  rw [aids_new, List.length_tail] at hlen
  exact List.eq_nil_of_length_eq_zero (by omega)

/-- The source returns every file exactly where there is none: the constructor stops at the first
one, and the first call steps over it. -/
theorem enumerates_iff : Enumerates dir ↔ dir.entries.files = [] :=
  ⟨files_eq_nil dir, fun hnone => ⟨_, articles_new dir, by rw [aids_new, hnone]; rfl⟩⟩

end Enumerate

/-- A directory with one file. -/
def oneFile : Directory where
  dirName := [0x64, 0x2f]
  entries := .dot (.dotdot (.file [0x64, 0x2f, 0x61] true .atEnd))
  dots := rfl
  dotdots := rfl
  complete := trivial
  below := by decide

theorem not_enumerates : ¬ ∀ dir, Enumerates dir := fun h =>
  absurd (files_eq_nil oneFile (h oneFile)) (by decide)

end FileSource

end Zim.Writer
