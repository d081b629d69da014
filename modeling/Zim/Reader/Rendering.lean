import Zim.Reader.Attached
import Zim.Reader.Template
import Zim.Writer.ArticleParser

/-! `Article::getPage` (article.cpp): pages that include other pages by way of templates. -/
namespace Zim
open Cxx Stateful FileImpl

inductive RenderError where
  | file (e : ZimError)
  /-- `std::runtime_error("maximum recursive limit is reached")`. -/
  | maximumRecursion
  /-- An article without a file, a mime type behind the list or a blob that its cluster does not
  have. -/
  | undefined
  deriving DecidableEq

/-- The file, the text written to `out`, and the articles that have been asked for something. -/
structure Rendering where
  file : FileImpl
  out : Bytes
  touched : List Article

namespace Article

abbrev Page := EStateM RenderError Rendering

def text (s : String) : Bytes := s.toList.map Writer.chr

def mimeHtmlTemplate : Bytes := text "text/x-zim-htmltemplate"

/-- `out << data`. -/
def write (data : Bytes) : Page PUnit := modify fun s => { s with out := s.out ++ data }

def onFile {α : Type} (x : M α) : Page α :=
  within Rendering.file (fun s file => { s with file }) .file x

/-- A getter of an article. The only articles here without a good index are those of `Article()`,
whose file is a null pointer. -/
def ask {α : Type} (article : Article) (x : M (Option α)) : Page α := do
  modify fun s => { s with touched := s.touched ++ [article] }
  if article.good then
    match ← onFile x with
    | some v => return v
    | none => throw .undefined
  else throw .undefined

/-- The article whose data is parsed as the template of a page. -/
def template (header : Fileheader) (layout : Bool) (mimeType : Bytes) (article : Article) :
    Option Article :=
  if mimeType.take 9 = text "text/html" || mimeType = mimeHtmlTemplate then
    if layout && header.layoutPage ≠ 0xffffffff then some ⟨header.layoutPage⟩
    else if mimeType = mimeHtmlTemplate then some article
    else none
  else none

variable (build : Build)

/-- What `onToken` writes for the three tokens that name a field of the entry. -/
def tokenField (token : Bytes) : Option (Dirent → Bytes) :=
  if token = text "title" then some Dirent.getTitle
  else if token = text "url" then some Dirent.getUrl
  else if token = text "namespace" then some fun d => [d.getNamespace]
  else none

/-- The handlers of `Ev`. `nested` is `getPage(out, false, maxRecurse - 1)`, none where
`maxRecurse` is 0. -/
def handle (nested : Option (Article → Page PUnit)) (article : Article) :
    TemplateEvent → Page PUnit
  | .onData data => write data
  | .onToken token =>
    match tokenField token with
    | some get => do write (← article.ask (do return some (get (← article.getDirent build))))
    | none =>
      if token = text "content" then
        match nested with
        | none => throw .maximumRecursion
        | some getPage => getPage article
      else write (text "<%" ++ token ++ text "%>")
  | .onLink ns url =>
    match nested with
    | none => throw .maximumRecursion
    | some getPage => do getPage (← onFile (File.getArticle build ns url))

/-- The body of `getPage`. The source asks for the mime type up to three times, with the same
answer. -/
def page (nested : Option (Article → Page PUnit)) (layout : Bool) (article : Article) :
    Page PUnit := do
  let mimeType ← article.ask (article.getMimeType build)
  match template (← get).file.header layout mimeType article with
  | some source => do
    let data ← source.ask (source.getData build)
    (TemplateParser.eventsOf data).forM (handle build nested article)
  | none => do write (← article.ask (article.getData build))

/-- `getPage(out, layout, maxRecurse)`. -/
def getPage : ℕ → Bool → Article → Page PUnit
  | 0, layout, article => page build none layout article
  | maxRecurse + 1, layout, article =>
    page build (some fun target => getPage maxRecurse false target) layout article

/-- A rendering returns or throws, and asks nothing of an article without a file. -/
def Safe (r : EStateM.Result RenderError Rendering PUnit) : Prop :=
  outcome r ≠ .error .undefined ∧ ∀ article ∈ (state r).touched, article.good = true

end Article

namespace Archive
variable (build : Build) (a : Archive)

def ask {α : Type} (article : Article) (r : Except ZimError (Option α)) : Except RenderError α :=
  if article.good then
    match r with
    | .ok (some v) => .ok v
    | .ok none => .error .undefined
    | .error e => .error (.file e)
  else .error .undefined

/-- The outcome of `File::getArticle(ns, url)`. -/
def getArticle (ns : UInt8) (url : Bytes) : Except ZimError Article := do
  let r ← a.findx build ns url
  return if r.1 then ⟨r.2⟩ else .new

/-- The outcome of a handler. -/
def handle (nested : Option (Article → Except RenderError PUnit)) (article : Article) :
    TemplateEvent → Except RenderError PUnit
  | .onData _ => .ok ⟨⟩
  | .onToken token =>
    match Article.tokenField token with
    | some get => do
      let _ ← ask article (do return some (get (← a.dirent build article.idx)))
    | none =>
      if token = Article.text "content" then
        match nested with
        | none => .error .maximumRecursion
        | some page => page article
      else .ok ⟨⟩
  | .onLink ns url =>
    match nested with
    | none => .error .maximumRecursion
    | some page => do page (← (a.getArticle build ns url).mapError .file)

/-- The outcome of `Article.page`. -/
def pageOf (nested : Option (Article → Except RenderError PUnit)) (layout : Bool)
    (article : Article) : Except RenderError PUnit := do
  let mimeType ← ask article (a.mimeType build article.idx)
  match Article.template a.header layout mimeType article with
  | some source => do
    let data ← ask source (a.data build source.idx)
    (TemplateParser.eventsOf data).forM (a.handle build nested article)
  | none => do let _ ← ask article (a.data build article.idx)

/-- The outcome of `getPage`. -/
def page : ℕ → Bool → Article → Except RenderError PUnit
  | 0, layout, article => a.pageOf build none layout article
  | maxRecurse + 1, layout, article =>
    a.pageOf build (some fun target => page maxRecurse false target) layout article

end Archive

namespace Article
variable {build : Build} {a : Archive}

/-- The file has been used, and all articles asked for something have one. -/
structure Sound (build : Build) (a : Archive) (lost : Bool) (s : Rendering) : Prop where
  file : Attached build a lost s.file
  touched : ∀ article ∈ s.touched, article.good = true

/-- What an exception leaves. -/
structure Left (build : Build) (a : Archive) (e : RenderError) (s : Rendering) : Prop where
  file : ∃ lost, Attached build a lost s.file
  touched : e ≠ .undefined → ∀ article ∈ s.touched, article.good = true

/-- A part of a rendering that comes to what is determined by the archive. -/
def Renders {α : Type} (build : Build) (a : Archive) (x : Page α) (r : Except RenderError α) :
    Prop :=
  Follows (Sound build a) (Left build a) x r

theorem Sound.left {lost : Bool} {s : Rendering} (h : Sound build a lost s) (e : RenderError) :
    Left build a e s := ⟨⟨lost, h.file⟩, fun _ => h.touched⟩

theorem write_renders (data : Bytes) : Renders build a (write data) (.ok ⟨⟩) :=
  .modify fun _ _ h => ⟨h.file, h.touched⟩

theorem onFile_renders {α : Type} {x : M α} {r : Except ZimError α} (h : Determined build a x r) :
    Renders build a (onFile x) (r.mapError .file) :=
  Follows.within h (fun _ _ hs => hs.file) (fun _ _ _ hs ht => ⟨ht, hs.touched⟩)
    fun _ _ _ _ hs ht => ⟨ht, fun _ => hs.touched⟩

theorem ask_renders {α : Type} {x : M (Option α)} {r : Except ZimError (Option α)}
    (article : Article) (h : Determined build a x r) :
    Renders build a (article.ask x) (Archive.ask article r) := by
  by_cases hgood : article.good = true
  · have hask : Archive.ask article r = r.mapError .file >>= fun v =>
        match v with
        | some v => .ok v
        | none => .error .undefined := by
      unfold Archive.ask
      rw [if_pos hgood]
      cases r with
      | error e => rfl
      | ok v => cases v <;> rfl
    rw [hask, ask, if_pos hgood]
    refine .seq (.modify fun _ _ hs => ⟨hs.file, ?_⟩) ((onFile_renders h).bind fun v _ => ?_)
    · simpa [or_imp, forall_and, hgood] using hs.touched
    · cases v with
      | some v => exact .pure _
      | none => exact .throw fun _ _ hs => hs.left _
  · unfold Archive.ask
    rw [if_neg hgood]
    intro lost s hs
    rw [ask, if_neg hgood]
    exact ⟨fun _ => rfl, ⟨lost, hs.file⟩, fun hne => absurd rfl hne⟩

section Nested
variable {nested : Option (Article → Page PUnit)}
  {outcomes : Option (Article → Except RenderError PUnit)}
  (hnested : Option.Rel (fun getPage page => ∀ target, Renders build a (getPage target)
    (page target)) nested outcomes)
include hnested

theorem handle_renders (article : Article) (event : TemplateEvent) :
    Renders build a (handle build nested article event)
      (a.handle build outcomes article event) := by
  cases event with
  | onData data => exact write_renders data
  | onToken token =>
    simp only [handle, Archive.handle]
    cases tokenField token with
    | some get =>
      have hget : Determined build a (do return some (get (← article.getDirent build)))
          (do return some (get (← a.dirent build article.idx))) :=
        (getDirent_determined article.idx).bind fun _ _ => .pure _
      exact (ask_renders article hget).bind fun _ _ => write_renders _
    | none =>
      dsimp only
      split
      · cases hnested with
        | none => exact .throw fun _ _ hs => hs.left _
        | some h => exact h article
      · exact write_renders _
  | onLink ns url =>
    have harticle : Determined build a (File.getArticle build ns url)
        (a.getArticle build ns url) := (findx_determined ns url).bind fun _ _ => .pure _
    cases hnested with
    | none => exact .throw fun _ _ hs => hs.left _
    | some h => exact (onFile_renders harticle).bind fun target _ => h target

theorem page_renders (layout : Bool) (article : Article) :
    Renders build a (page build nested layout article)
      (a.pageOf build outcomes layout article) := by
  refine (ask_renders article (getMimeType_determined article)).bind fun mimeType _ =>
    .get_bind fun lost s hs => ?_
  rw [hs.file.serves.header]
  cases template a.header layout mimeType article with
  | some source =>
    exact (ask_renders source (getData_determined source)).bind fun data _ =>
      .forM _ fun event => handle_renders hnested article event
  | none => exact (ask_renders article (getData_determined article)).bind fun _ _ => write_renders _

end Nested

/-- Whatever the templates of an archive include, a page comes to what the archive determines. -/
theorem getPage_renders (maxRecurse : ℕ) (layout : Bool) (article : Article) :
    Renders build a (getPage build maxRecurse layout article)
      (a.page build maxRecurse layout article) := by
  induction maxRecurse generalizing layout article with
  | zero => exact page_renders .none layout article
  | succ maxRecurse ih => exact page_renders (.some fun target => ih false target) layout article

end Article
end Zim
