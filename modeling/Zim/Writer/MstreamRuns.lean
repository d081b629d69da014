import Zim.Writer.MstreamPages

/-! Runs of the paged store over any number of streams. -/
namespace Zim.Mstream
open Cxx LinkedSegment

/-- The calls of the store's users. -/
inductive Op where
  | write (streamname : Bytes) (chunk : MStream.Chunk)
  | read (streamname : Bytes)

def Op.isWrite : Op → Bool
  | write _ _ => true
  | read _ => false

/-- The default sizes of the buffer of a stream. -/
def minBuffersize : UInt32 := 18

def maxBuffersize : UInt32 := 64 * 18

namespace MStream
variable (o : ByteOrder) (uninit : Page)

/-- A call and the string a read returns. -/
def step (m : MStream) : Op → Except MstreamError (List Bytes × MStream)
  | .write name chunk => do
    let m ← m.write o minBuffersize maxBuffersize uninit name chunk.val
    .ok ([], m)
  | .read name => do
    let (str, m) ← m.read o name
    .ok ([str], m)

def run (m : MStream) : List Op → Except MstreamError (List Bytes × MStream)
  | [] => .ok ([], m)
  | op :: ops => do
    let (out, m) ← m.step o uninit op
    let (outs, m) ← run m ops
    .ok (out ++ outs, m)

/-- The states met in a run, those between two characters of a write included. -/
inductive Reaches : MStream → List Op → MStream → Prop
  | here (m : MStream) (ops : List Op) : Reaches m ops m
  | within {m m' : MStream} {name : Bytes} {chunk : Chunk} {ops : List Op} (k : ℕ)
    (h : m.write o minBuffersize maxBuffersize uninit name (chunk.val.take k) = .ok m') :
    Reaches m (.write name chunk :: ops) m'
  | later {m m' m'' : MStream} {op : Op} {ops : List Op} {out : List Bytes}
    (h : m.step o uninit op = .ok (out, m')) (h' : Reaches m' ops m'') :
    Reaches m (op :: ops) m''

end MStream

/-- What was written to every name. -/
def written : (Bytes → Bytes) → List Op → Bytes → Bytes
  | w, [] => w
  | w, .write name chunk :: ops => written (Function.update w name (w name ++ chunk.val)) ops
  | w, .read _ :: ops => written w ops

/-- What the reads of a run return. -/
def reads : (Bytes → Bytes) → List Op → List Bytes
  | _, [] => []
  | w, .write name chunk :: ops => reads (Function.update w name (w name ++ chunk.val)) ops
  | w, .read name :: ops => w name :: reads w ops

/-- Every stream holds what was written to its name, in pages of its own. -/
structure Inv (o : ByteOrder) (m : MStream) (w : Bytes → Bytes) (pages : List Page)
    (cells : Bytes → List (ℕ × Page)) : Prop where
  file : m.pagefile.Pages o pages
  stream : ∀ name, ((m.streams name).getD (.new minBuffersize)).Holds pages (cells name) (w name)
  apart : ∀ a b, a ≠ b → ∀ i ∈ (cells a).map Prod.fst, i ∉ (cells b).map Prod.fst

/-- A change that stays clear of a stream's pages leaves the stream as it is. -/
theorem Stream.Holds.frame {pages pages' : List Page} {s : Stream}
    {cells cells₁ cells₁' : List (ℕ × Page)} {c : Bytes} (h : s.Holds pages cells c)
    (hgrows : Grows pages cells₁ pages' cells₁')
    (happ : ∀ i ∈ cells.map Prod.fst, i ∉ cells₁.map Prod.fst) : s.Holds pages' cells c := by
  refine ⟨?_, h.chain, h.nodup, h.current, h.fits, h.size, h.data, h.ppos, h.content⟩
  intro p hp
  rw [hgrows.kept _ (happ _ (List.mem_map_of_mem hp)) (h.stored.lt hp), h.stored p hp]

theorem Stream.new_holds : (Stream.new minBuffersize).Holds [] [] [] := by
  refine ⟨nofun, rfl, List.nodup_nil, rfl, nofun, ⟨0, by decide, rfl⟩, rfl, Nat.zero_le _, rfl⟩

namespace Inv
variable {o : ByteOrder} {uninit : Page} {m : MStream} {w : Bytes → Bytes} {pages : List Page}
  {cells : Bytes → List (ℕ × Page)}

theorem empty : Inv o .empty (fun _ => []) [] (fun _ => []) :=
  ⟨Pagefile.Pages.empty, fun _ => Stream.new_holds, nofun⟩

theorem write (h : Inv o m w pages cells) (name bs : Bytes)
    (hfew : ∀ k m', m.write o minBuffersize maxBuffersize uninit name (bs.take k) = .ok m' →
      m'.pagefile.pages < 2 ^ 32 - 1) :
    ∃ m' pages' cells', m.write o minBuffersize maxBuffersize uninit name bs = .ok m' ∧
      Inv o m' (Function.update w name (w name ++ bs)) pages' cells' := by
  obtain ⟨s', f', pages', cells', hw, hf', hs', hgrows⟩ :=
    Stream.write_spec uninit bs h.file (h.stream name) (fun k s' f' he => by
      apply hfew k ⟨Function.update m.streams name (some s'), f'⟩
      rw [MStream.write, show maxBuffersize = 1152 from rfl, he]
      rfl)
  refine ⟨⟨Function.update m.streams name (some s'), f'⟩, pages',
    Function.update cells name cells', ?_, hf', ?_, ?_⟩
  · rw [MStream.write, show maxBuffersize = 1152 from rfl, hw]
    rfl
  · intro b
    by_cases hb : b = name
    · subst hb
      simpa using hs'
    · simp only [Function.update_of_ne hb]
      exact (h.stream b).frame hgrows (h.apart b name hb)
  · -- a new page of this stream lies behind every page there was before
    have hnew : ∀ b, b ≠ name → ∀ i ∈ cells'.map Prod.fst, i ∉ (cells b).map Prod.fst := by
      intro b hb i hi hib
      rcases hgrows.fresh i hi with hold | hle
      · exact h.apart name b hb.symm i hold hib
      · obtain ⟨p, hp, rfl⟩ := List.mem_map.mp hib
        exact absurd ((h.stream b).stored.lt hp) (by omega)
    intro a b hab i hi
    by_cases ha : a = name
    · subst ha
      rw [Function.update_self] at hi
      rw [Function.update_of_ne hab.symm]
      exact hnew b hab.symm i hi
    · rw [Function.update_of_ne ha] at hi
      by_cases hb : b = name
      · subst hb
        rw [Function.update_self]
        exact fun hi' => hnew a ha i hi' hi
      · rw [Function.update_of_ne hb]
        exact h.apart a b hab i hi


end Inv

section Rewind
variable (o : ByteOrder) (maxBuffersize : UInt32) (uninit : Page) {f f' : Pagefile}

theorem Pagefile.seek_congr (h : f.rewind = f'.rewind) (off : ℕ) :
    f.backfile.seek off = f'.backfile.seek off := by
  obtain ⟨⟨content, pos, fail⟩, nextPage⟩ := f
  obtain ⟨⟨content', pos', fail'⟩, nextPage'⟩ := f'
  simp only [rewind, Pagefile.mk.injEq] at h
  cases fail <;> cases fail' <;> simp_all [Fstream.seek]

theorem Pagefile.nextPage_congr (h : f.rewind = f'.rewind) : f.nextPage = f'.nextPage :=
  show f.rewind.nextPage = f'.rewind.nextPage by rw [h]

theorem Pagefile.getNewPage_congr (h : f.rewind = f'.rewind) :
    f.getNewPage.1 = f'.getNewPage.1 ∧ f.getNewPage.2.rewind = f'.getNewPage.2.rewind := by
  simp only [getNewPage, rewind, seek_congr h, nextPage_congr h, and_self]

theorem Pagefile.getPage_congr (h : f.rewind = f'.rewind) (num : UInt32) :
    f.getPage o num = f'.getPage o num := by
  simp only [getPage, seek_congr h, nextPage_congr h]

theorem Pagefile.putPage_congr (h : f.rewind = f'.rewind) (num : UInt32) (page : Page) (size : ℕ) :
    f.putPage o num page size = f'.putPage o num page size := by
  simp only [putPage, seek_congr h, nextPage_congr h]

/-- Two results that differ in the file position at most. -/
def SameResult {α : Type} (r r' : Except MstreamError (α × Pagefile)) : Prop :=
  r.map (Prod.map id Pagefile.rewind) = r'.map (Prod.map id Pagefile.rewind)

theorem SameResult.cases {α : Type} {r r' : Except MstreamError (α × Pagefile)}
    (h : SameResult r r') :
    (∃ e, r = .error e ∧ r' = .error e) ∨
      ∃ a f f', r = .ok (a, f) ∧ r' = .ok (a, f') ∧ f.rewind = f'.rewind := by
  rcases r with e | ⟨a, f⟩ <;> rcases r' with e' | ⟨a', f'⟩
  · exact .inl ⟨e, rfl, by cases h; rfl⟩
  · cases h
  · cases h
  · have hp := Except.ok.inj h
    obtain rfl : a = a' := congrArg Prod.fst hp
    exact .inr ⟨a, f, f', rfl, rfl, congrArg Prod.snd hp⟩

theorem SameResult.ok {α : Type} (a : α) (h : f.rewind = f'.rewind) :
    SameResult (.ok (a, f)) (.ok (a, f')) := by
  simp only [SameResult, Except.map, Prod.map, id, h]

namespace Stream

theorem newPage_congr (s : Stream) (h : f.rewind = f'.rewind) (page : Page) :
    s.newPage o f page = s.newPage o f' page := by
  obtain ⟨hnum, hrew⟩ := Pagefile.getNewPage_congr h
  simp only [newPage, hnum, Pagefile.putPage_congr o hrew]

theorem overflow_congr (s : Stream) (h : f.rewind = f'.rewind) :
    SameResult (s.overflow o maxBuffersize uninit f) (s.overflow o maxBuffersize uninit f') := by
  unfold overflow
  split_ifs with hpos hmax hcur
  · exact SameResult.ok _ h
  · exact SameResult.ok _ h
  · rw [Pagefile.getPage_congr o h]
    rfl
  · rw [newPage_congr o s h]
    rfl

theorem put_congr (s : Stream) (h : f.rewind = f'.rewind) (ch : UInt8) :
    SameResult (s.put o maxBuffersize uninit f ch) (s.put o maxBuffersize uninit f' ch) := by
  have hstore : ∀ (s : Stream) {f f' : Pagefile}, f.rewind = f'.rewind →
      SameResult (do let s ← s.store ch; .ok (s, f)) (do let s ← s.store ch; .ok (s, f')) := by
    intro s f f' h
    cases s.store ch with
    | error e => rfl
    | ok s => exact SameResult.ok s h
  unfold put
  split_ifs with hfull
  · rcases (overflow_congr o maxBuffersize uninit s h).cases
      with ⟨e, h₁, h₂⟩ | ⟨s', g, g', h₁, h₂, hg⟩
    · rw [h₁, h₂]
      rfl
    · rw [h₁, h₂]
      exact hstore s' hg
  · exact hstore s h

theorem write_congr (bs : Bytes) (s : Stream) (h : f.rewind = f'.rewind) :
    SameResult (s.write o maxBuffersize uninit f bs) (s.write o maxBuffersize uninit f' bs) := by
  induction bs generalizing s f f' with
  | nil => exact SameResult.ok s h
  | cons ch bs ih =>
    unfold write
    rcases (put_congr o maxBuffersize uninit s h ch).cases
      with ⟨e, h₁, h₂⟩ | ⟨s', g, g', h₁, h₂, hg⟩
    · rw [h₁, h₂]
      rfl
    · rw [h₁, h₂]
      exact ih s' hg

end Stream

/-- The store with its file position at the start. -/
def MStream.rewind (m : MStream) : MStream := { m with pagefile := m.pagefile.rewind }

theorem MStream.write_congr {m m' m₁ : MStream} (h : m.rewind = m'.rewind) {name bs : Bytes}
    (hw : m.write o minBuffersize Mstream.maxBuffersize uninit name bs = .ok m₁) :
    ∃ m₁', m'.write o minBuffersize Mstream.maxBuffersize uninit name bs = .ok m₁' ∧
      m₁.rewind = m₁'.rewind := by
  have hs : m.streams = m'.streams := show m.rewind.streams = m'.rewind.streams by rw [h]
  have hf : m.pagefile.rewind = m'.pagefile.rewind :=
    show m.rewind.pagefile = m'.rewind.pagefile by rw [h]
  simp only [write, ← hs, bind, Except.bind] at hw ⊢
  rcases (Stream.write_congr o Mstream.maxBuffersize uninit bs
    ((m.streams name).getD (.new minBuffersize)) hf).cases
      with ⟨e, h₁, h₂⟩ | ⟨s', g, g', h₁, h₂, hg⟩
  · rw [h₁] at hw
    cases hw
  · rw [h₁] at hw
    rw [h₂]
    cases hw
    exact ⟨_, rfl, by simp only [rewind, hg]⟩

end Rewind

namespace Inv
variable {o : ByteOrder} {uninit : Page} {m : MStream} {w : Bytes → Bytes} {pages : List Page}
  {cells : Bytes → List (ℕ × Page)}

/-- A read returns what was written and moves nothing but the file position. -/
theorem read (h : Inv o m w pages cells) (name : Bytes) :
    ∃ m', m.read o name = .ok (w name, m') ∧ Inv o m' w pages cells ∧ m'.rewind = m.rewind := by
  have hfew : pages.length ≤ 2 ^ 32 - 1 := Nat.le_pred_of_lt h.file.few
  have hs := h.stream name
  cases hm : m.streams name with
  | none =>
    rw [hm] at hs
    have hcells : cells name = [] := by
      by_contra hne
      exact hs.firstPage_ne hne hfew rfl
    have hw : w name = [] := by
      rw [hs.content, hcells]
      rfl
    exact ⟨m, by simp only [MStream.read, hm, hw], h, rfl⟩
  | some s =>
    replace hs : s.Holds pages (cells name) (w name) := by rwa [hm] at hs
    obtain ⟨f', hr, hf', hrew⟩ := Stream.read_spec h.file hfew hs
    refine ⟨{ m with pagefile := f' }, ?_, ⟨hf', h.stream, h.apart⟩, ?_⟩
    · simp only [MStream.read, hm, hr, bind, Except.bind]
    · simp only [MStream.rewind, hrew]

end Inv

/-- From a state that holds `w`, every run with few enough pages returns for each read what
was written before it, and it ends in the state its writes alone end in. -/
theorem run_spec {o : ByteOrder} {uninit : Page} (ops : List Op) {m : MStream} {w : Bytes → Bytes}
    {pages : List Page} {cells : Bytes → List (ℕ × Page)} (h : Inv o m w pages cells)
    (hfew : ∀ m', m.Reaches o uninit ops m' → m'.pagefile.pages < 2 ^ 32 - 1) {m₀ : MStream}
    (h₀ : m₀.rewind = m.rewind) :
    ∃ m' m₀' pages' cells', m.run o uninit ops = .ok (reads w ops, m') ∧
      Inv o m' (written w ops) pages' cells' ∧
      m₀.run o uninit (ops.filter Op.isWrite) = .ok ([], m₀') ∧ m₀'.rewind = m'.rewind := by
  induction ops generalizing m w pages cells m₀ with
  | nil => exact ⟨m, m₀, pages, cells, rfl, h, rfl, h₀⟩
  | cons op ops ih =>
    cases op with
    | write name chunk =>
      obtain ⟨m₁, pages₁, cells₁, hw, h₁⟩ :=
        h.write name chunk.val fun k m' hk => hfew m' (.within k hk)
      have hstep : m.step o uninit (.write name chunk) = .ok ([], m₁) := by
        simp only [MStream.step, hw, bind, Except.bind]
      obtain ⟨m₂, hw₂, hrew₂⟩ := MStream.write_congr o uninit h₀.symm hw
      obtain ⟨m', m₀', pages', cells', hrun, hinv, hrun₀, hrew⟩ :=
        ih h₁ (fun m' hm' => hfew m' (.later hstep hm')) hrew₂.symm
      refine ⟨m', m₀', pages', cells', ?_, hinv, ?_, hrew⟩
      · simp only [MStream.run, hstep, hrun, bind, Except.bind, reads, List.nil_append]
      · have hstep₀ : m₀.step o uninit (.write name chunk) = .ok ([], m₂) := by
          simp only [MStream.step, hw₂, bind, Except.bind]
        simp only [List.filter_cons, Op.isWrite, if_true, MStream.run, hstep₀, hrun₀, bind,
          Except.bind, List.nil_append]
    | read name =>
      obtain ⟨m₁, hr, h₁, hrew₁⟩ := h.read name
      have hstep : m.step o uninit (.read name) = .ok ([w name], m₁) := by
        simp only [MStream.step, hr, bind, Except.bind]
      obtain ⟨m', m₀', pages', cells', hrun, hinv, hrun₀, hrew⟩ :=
        ih h₁ (fun m' hm' => hfew m' (.later hstep hm')) (h₀.trans hrew₁.symm)
      refine ⟨m', m₀', pages', cells', ?_, hinv, ?_, hrew⟩
      · simp only [MStream.run, hstep, hrun, bind, Except.bind, reads, List.singleton_append]
      · simpa [List.filter_cons, Op.isWrite] using hrun₀

/-- A page of zeros. -/
def Page.blank : Page := ⟨0, 0, List.replicate dataSize 0, List.length_replicate⟩

end Zim.Mstream
