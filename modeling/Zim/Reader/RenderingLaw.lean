import Zim.Reader.Rendering

/-! Which pages are rendered without an access to an article that does not exist (article.cpp). -/
namespace Zim
open Cxx Stateful FileImpl Article

/-- A call of `getPage`. -/
structure Visit where
  maxRecurse : ℕ
  layout : Bool
  article : Article

namespace Archive
variable (build : Build) (a : Archive)

/-- The outcomes of the pages that a page includes. -/
def nestedPages : ℕ → Option (Article → Except RenderError PUnit)
  | 0 => none
  | maxRecurse + 1 => some fun target => a.page build maxRecurse false target

def visit (v : Visit) : Except RenderError PUnit := a.page build v.maxRecurse v.layout v.article

/-- Whose data is taken for a page. -/
def ReadsFrom (v : Visit) (source : Article) : Prop :=
  ∃ mimeType, a.mimeType build v.article.idx = .ok (some mimeType) ∧
    (template a.header v.layout mimeType v.article).getD v.article = source

/-- The template that is parsed for a page. -/
def Parses (v : Visit) (data : Bytes) : Prop :=
  ∃ mimeType source, a.mimeType build v.article.idx = .ok (some mimeType) ∧
    template a.header v.layout mimeType v.article = some source ∧
    a.data build source.idx = .ok (some data)

/-- A page gets to an event of its template, none of the events before having thrown. -/
def GetsTo (v : Visit) (event : TemplateEvent) : Prop :=
  ∃ data pre post, a.Parses build v data ∧
    TemplateParser.eventsOf data = pre ++ event :: post ∧
    ∀ e ∈ pre, a.handle build (a.nestedPages build v.maxRecurse) v.article e = .ok ⟨⟩

/-- The pages that a page includes. -/
inductive Includes (v : Visit) : Visit → Prop where
  | content {n : ℕ} (h : a.GetsTo build v (.onToken (text "content")))
      (hrecurse : v.maxRecurse = n + 1) : Includes v ⟨n, false, v.article⟩
  | link {n : ℕ} {ns : UInt8} {url : Bytes} {p : UInt32} (h : a.GetsTo build v (.onLink ns url))
      (hrecurse : v.maxRecurse = n + 1) (hfound : a.findx build ns url = .ok (true, p)) :
      Includes v ⟨n, false, ⟨p⟩⟩

inductive Reaches : Visit → Visit → Prop where
  | self (v : Visit) : Reaches v v
  | step {v w u : Visit} (h : a.Includes build v w) (hrest : Reaches w u) : Reaches v u

/-- The entry and the data of a page are in the archive, and so is what a link leads to. -/
structure Present (v : Visit) : Prop where
  mimeType : a.mimeType build v.article.idx ≠ .ok none
  data : ∀ source, a.ReadsFrom build v source → a.data build source.idx ≠ .ok none
  link : ∀ ns url p, 0 < v.maxRecurse → a.GetsTo build v (.onLink ns url) →
    a.findx build ns url ≠ .ok (false, p)

section Visits
variable {build a}

theorem visit_eq (v : Visit) : a.visit build v =
    a.pageOf build (a.nestedPages build v.maxRecurse) v.layout v.article := by
  obtain ⟨n, layout, article⟩ := v
  cases n <;> rfl

theorem pageOf_new (nested : Option (Article → Except RenderError PUnit)) (layout : Bool) :
    a.pageOf build nested layout .new = .error .undefined := rfl

theorem visit_new (n : ℕ) : a.visit build ⟨n, false, .new⟩ = .error .undefined := by
  rw [visit_eq, pageOf_new]

theorem template_good {layout : Bool} {mimeType : Bytes} {article source : Article}
    (hgood : article.good = true) (h : template a.header layout mimeType article = some source) :
    source.good = true := by
  unfold template at h
  split_ifs at h with hhtml hlayout
  · cases h
    simp only [Bool.and_eq_true, decide_eq_true_eq] at hlayout
    simpa [good] using hlayout.2
  · cases h
    exact hgood

theorem ask_undefined_iff {α : Type} {article : Article} (hgood : article.good = true)
    {r : Except ZimError (Option α)} : ask article r = .error .undefined ↔ r = .ok none := by
  unfold ask
  rw [if_pos hgood]
  cases r with
  | error e => simp
  | ok v => cases v <;> simp

theorem ask_ok_iff {α : Type} {article : Article} (hgood : article.good = true)
    {r : Except ZimError (Option α)} {v : α} : ask article r = .ok v ↔ r = .ok (some v) := by
  unfold ask
  rw [if_pos hgood]
  cases r with
  | error e => simp
  | ok v => cases v <;> simp

/-- A sequence ends undefined in its first or in its second part. -/
theorem bind_undefined_iff {α β : Type} {r : Except RenderError α}
    {f : α → Except RenderError β} :
    (r >>= f) = .error .undefined ↔
      r = .error .undefined ∨ ∃ v, r = .ok v ∧ f v = .error .undefined := by
  cases r with
  | error e => simp [bind, Except.bind]
  | ok v => simp [bind, Except.bind]

theorem tokenField_content : tokenField (text "content") = none := by decide

theorem handle_token_undefined_iff {v : Visit} (hgood : v.article.good = true) (token : Bytes) :
    a.handle build (a.nestedPages build v.maxRecurse) v.article (.onToken token) =
        .error .undefined ↔
      token = text "content" ∧ ∃ n, v.maxRecurse = n + 1 ∧
        a.visit build ⟨n, false, v.article⟩ = .error .undefined := by
  simp only [handle]
  cases hfield : tokenField token with
  | some get =>
    have hne : token ≠ text "content" := by
      rintro rfl
      rw [tokenField_content] at hfield
      cases hfield
    simp only [hne, false_and, iff_false]
    intro hundefined
    obtain hask | ⟨x, -, hx⟩ := bind_undefined_iff.mp hundefined
    · obtain ⟨d, -, hd⟩ := Fallible.bind_eq_ok.mp ((ask_undefined_iff hgood).mp hask)
      cases hd
    · cases hx
  | none =>
    by_cases hcontent : token = text "content"
    · simp only [hcontent, if_true, true_and]
      cases v.maxRecurse with
      | zero => simp [nestedPages]
      | succ n => simp [nestedPages, visit]
    · simp [hcontent]

theorem handle_link_undefined_iff {v : Visit} (ns : UInt8) (url : Bytes) :
    a.handle build (a.nestedPages build v.maxRecurse) v.article (.onLink ns url) =
        .error .undefined ↔
      ∃ n, v.maxRecurse = n + 1 ∧ ((∃ p, a.findx build ns url = .ok (false, p)) ∨
        ∃ p, a.findx build ns url = .ok (true, p) ∧
          a.visit build ⟨n, false, ⟨p⟩⟩ = .error .undefined) := by
  simp only [handle]
  cases v.maxRecurse with
  | zero => simp [nestedPages]
  | succ n =>
    simp only [nestedPages, getArticle, Nat.succ.injEq, exists_eq_left']
    cases hfind : a.findx build ns url with
    | error e => simp [bind, Except.bind, Except.mapError]
    | ok r =>
      obtain ⟨hit, p⟩ := r
      cases hit with
      | false =>
        refine iff_of_true ?_ (.inl ⟨p, rfl⟩)
        exact visit_new n
      | true =>
        show a.visit build ⟨n, false, ⟨p⟩⟩ = .error .undefined ↔ _
        simp

/-- What goes wrong at an event that a page gets to goes wrong with the page. -/
theorem visit_undefined_of {v : Visit} (hgood : v.article.good = true) {event : TemplateEvent}
    (h : a.GetsTo build v event)
    (hevent : a.handle build (a.nestedPages build v.maxRecurse) v.article event =
      .error .undefined) : a.visit build v = .error .undefined := by
  obtain ⟨data, pre, post, ⟨mimeType, source, hmime, htemplate, hdata⟩, hevents, hpre⟩ := h
  rw [visit_eq, pageOf]
  refine bind_undefined_iff.mpr (.inr ⟨mimeType, (ask_ok_iff hgood).mpr hmime, ?_⟩)
  simp only [htemplate]
  have hsource := template_good hgood htemplate
  exact bind_undefined_iff.mpr (.inr ⟨data, (ask_ok_iff hsource).mpr hdata,
    forM_error_iff.mpr ⟨pre, event, post, hevents, hpre, hevent⟩⟩)

theorem visit_undefined_of_absent {v : Visit} (hgood : v.article.good = true)
    (h : ¬ a.Present build v) : a.visit build v = .error .undefined := by
  by_contra hvisit
  refine h ⟨fun hmime => hvisit ?_, fun source hsource hdata => hvisit ?_,
    fun ns url p hpos hgets hfind => hvisit ?_⟩
  · rw [visit_eq, pageOf]
    exact bind_undefined_iff.mpr (.inl ((ask_undefined_iff hgood).mpr hmime))
  · obtain ⟨mimeType, hmime, hsource⟩ := hsource
    rw [visit_eq, pageOf]
    refine bind_undefined_iff.mpr (.inr ⟨mimeType, (ask_ok_iff hgood).mpr hmime, ?_⟩)
    cases htemplate : template a.header v.layout mimeType v.article with
    | some source' =>
      obtain rfl : source' = source := by rw [htemplate] at hsource; exact hsource
      exact bind_undefined_iff.mpr
        (.inl ((ask_undefined_iff (template_good hgood htemplate)).mpr hdata))
    | none =>
      obtain rfl : v.article = source := by rw [htemplate] at hsource; exact hsource
      exact bind_undefined_iff.mpr (.inl ((ask_undefined_iff hgood).mpr hdata))
  · obtain ⟨n, hn⟩ : ∃ n, v.maxRecurse = n + 1 := ⟨v.maxRecurse - 1, by omega⟩
    exact visit_undefined_of hgood hgets
      ((handle_link_undefined_iff ns url).mpr ⟨n, hn, .inl ⟨p, hfind⟩⟩)

/-- A page goes wrong by itself or in a page that it includes. -/
theorem visit_undefined_iff {v : Visit} (hgood : v.article.good = true) :
    a.visit build v = .error .undefined ↔
      ¬ a.Present build v ∨ ∃ w, a.Includes build v w ∧ a.visit build w = .error .undefined := by
  constructor
  · intro hvisit
    rw [visit_eq, pageOf] at hvisit
    obtain hmime | ⟨mimeType, hmime, hrest⟩ := bind_undefined_iff.mp hvisit
    · exact .inl fun h => h.mimeType ((ask_undefined_iff hgood).mp hmime)
    rw [ask_ok_iff hgood] at hmime
    cases htemplate : template a.header v.layout mimeType v.article with
    | none =>
      simp only [htemplate] at hrest
      obtain hdata | ⟨data, -, hdata⟩ := bind_undefined_iff.mp hrest
      · exact .inl fun h => h.data v.article ⟨mimeType, hmime, by rw [htemplate]; rfl⟩
          ((ask_undefined_iff hgood).mp hdata)
      · cases hdata
    | some source =>
      have hsource := template_good hgood htemplate
      simp only [htemplate] at hrest
      obtain hdata | ⟨data, hdata, hloop⟩ := bind_undefined_iff.mp hrest
      · exact .inl fun h => h.data source ⟨mimeType, hmime, by rw [htemplate]; rfl⟩
          ((ask_undefined_iff hsource).mp hdata)
      obtain ⟨pre, event, post, hevents, hpre, hevent⟩ := forM_error_iff.mp hloop
      have hgets : a.GetsTo build v event :=
        ⟨data, pre, post, ⟨mimeType, source, hmime, htemplate, (ask_ok_iff hsource).mp hdata⟩,
          hevents, hpre⟩
      cases event with
      | onData text => cases hevent
      | onToken token =>
        obtain ⟨rfl, n, hn, hw⟩ := (handle_token_undefined_iff hgood token).mp hevent
        exact .inr ⟨_, .content hgets hn, hw⟩
      | onLink ns url =>
        obtain ⟨n, hn, ⟨p, hfind⟩ | ⟨p, hfind, hw⟩⟩ := (handle_link_undefined_iff ns url).mp hevent
        · exact .inl fun h => h.link ns url p (by omega) hgets hfind
        · exact .inr ⟨_, .link hgets hn hfind, hw⟩
  · rintro (habsent | ⟨w, hincludes, hw⟩)
    · exact visit_undefined_of_absent hgood habsent
    · cases hincludes with
      | content hgets hn =>
        exact visit_undefined_of hgood hgets
          ((handle_token_undefined_iff hgood _).mpr ⟨rfl, _, hn, hw⟩)
      | link hgets hn hfind =>
        exact visit_undefined_of hgood hgets
          ((handle_link_undefined_iff _ _).mpr ⟨_, hn, .inr ⟨_, hfind, hw⟩⟩)

/-- An included page is a page of the archive, with fewer inclusions left. -/
theorem Includes.article_good {v w : Visit} (h : a.Includes build v w)
    (hgood : v.article.good = true) :
    w.article.good = true ∧ v.maxRecurse = w.maxRecurse + 1 := by
  cases h with
  | content hgets hn => exact ⟨hgood, hn⟩
  | @link n ns url p hgets hn hfind =>
    have hlt := UInt32.lt_iff_toNat_lt.mp (findx_lt hfind)
    have hcount := a.header.articleCount.toNat_lt
    refine ⟨?_, hn⟩
    have hne : p ≠ 0xffffffff := by
      rintro rfl
      simp only [UInt32.reduceToNat] at hlt
      omega
    simp [good, hne]

/-- A page goes wrong exactly if one of the pages that it reaches does so by itself. -/
theorem visit_undefined_iff_reaches {v : Visit} (hgood : v.article.good = true) :
    a.visit build v = .error .undefined ↔ ∃ w, a.Reaches build v w ∧ ¬ a.Present build w := by
  induction hn : v.maxRecurse using Nat.strong_induction_on generalizing v with
  | _ n ih =>
    rw [visit_undefined_iff hgood]
    constructor
    · rintro (habsent | ⟨w, hincludes, hw⟩)
      · exact ⟨v, .self v, habsent⟩
      · obtain ⟨hgood', hless⟩ := hincludes.article_good hgood
        obtain ⟨u, hreaches, habsent⟩ := (ih w.maxRecurse (by omega) hgood' rfl).mp hw
        exact ⟨u, .step hincludes hreaches, habsent⟩
    · rintro ⟨u, hreaches, habsent⟩
      cases hreaches with
      | self => exact .inl habsent
      | @step _ w _ hincludes hrest =>
        obtain ⟨hgood', hless⟩ := hincludes.article_good hgood
        exact .inr ⟨w, hincludes,
          (ih w.maxRecurse (by omega) hgood' rfl).mpr ⟨u, hrest, habsent⟩⟩

end Visits
end Archive

section Uses
variable (build : Build)

/-- What may be done with a file before a page is rendered. -/
inductive Use where
  | call (c : Call)
  | findx (ns : UInt8) (url : Bytes)
  | page (maxRecurse : ℕ) (layout : Bool) (article : Article)

/-- The file behind a use, whose exceptions the caller has handled. -/
def Use.run (f : FileImpl) : Use → FileImpl
  | call c => state (c.run build f)
  | findx ns url => state (File.findx build ns url f)
  | page maxRecurse layout article =>
    (state (getPage build maxRecurse layout article ⟨f, [], []⟩)).file

def Use.after (uses : List Use) (f : FileImpl) : FileImpl := uses.foldl (Use.run build) f

variable {build} {a : Archive}

theorem call_caches (c : Call) (begins ends : UInt8 → Option UInt32) :
    Preserves (HasCaches begins ends) (c.run build) := by
  intro f hf
  cases c with
  | getDirent idx =>
    rw [Call.run, state_map]
    exact getDirent_preserves (fun _ _ _ h => h) idx f hf
  | getIndexByTitle idx =>
    rw [Call.run, state_map]
    exact getIndexByTitle_preserves (fun _ _ _ h => h) idx f hf
  | getDirentByTitle idx =>
    rw [Call.run, state_map]
    exact getDirentByTitle_preserves (fun _ _ _ h => h) idx f hf
  | getCluster idx =>
    rw [Call.run, state_map]
    exact getCluster_preserves (fun _ _ _ h => h) idx f hf
  | getChecksum =>
    have hstream (f : FileImpl) (s : IStream) (h : HasCaches begins ends f) :
        HasCaches begins ends (f.withStream s) := h
    have hchecksum : Preserves (HasCaches begins ends) getChecksum :=
      .bind .get fun _ => .ite (.pure _) (.bind (seekg_preserves hstream _) fun _ =>
        .bind (extract_preserves hstream _) fun _ => .bind failed_preserves fun _ =>
        .ite (.pure _) (.pure _))
    rw [Call.run, state_map]
    exact hchecksum f hf

theorem run_attached (use : Use) {f : FileImpl} (hf : ∃ lost, Attached build a lost f) :
    ∃ lost, Attached build a lost (use.run build f) := by
  obtain ⟨lost, hf⟩ := hf
  cases use with
  | call c =>
    have hcaches := @call_caches build c _ _ f ⟨rfl, rfl⟩
    cases lost with
    | false => exact ⟨_, hf.of_caches (run_runs c f hf.serves).2 hcaches⟩
    | true => exact ⟨_, hf.of_caches (run_lost c hf.serves).2 hcaches⟩
  | findx ns url =>
    exact (findx_determined ns url).leaves hf (fun lost _ h => ⟨lost, h⟩) fun _ _ h => h
  | page maxRecurse layout article =>
    have hsound : Sound build a lost ⟨f, [], []⟩ := ⟨hf, List.forall_mem_nil _⟩
    exact (getPage_renders maxRecurse layout article).leaves hsound (fun lost _ h => ⟨lost, h.file⟩)
      fun _ _ h => h.file

theorem after_attached (uses : List Use) {f : FileImpl} (hf : ∃ lost, Attached build a lost f) :
    ∃ lost, Attached build a lost (Use.after build uses f) := by
  induction uses generalizing f with
  | nil => exact hf
  | cons use uses ih => exact ih (run_attached use hf)

theorem Attached.fail {lost : Bool} {f : FileImpl} (h : Attached build a lost f) :
    f.zimFile.fail = lost := by
  obtain ⟨s, hs, hholds⟩ := h.serves
  rw [← hs, ← hholds.stream]

end Uses

section Rendered
variable {build : Build} {a : Archive} {article : Article}

/-- On a file that has lost a read, an article cannot even be asked for its mime type. -/
theorem page_lost {f : FileImpl} (hf : Attached build a true f) (hgood : article.good = true)
    (nested : Option (Article → Page PUnit)) (layout : Bool) (out : Bytes) :
    Safe (page build nested layout article ⟨f, out, []⟩) := by
  obtain ⟨e, f', hmime⟩ : ∃ e f', article.getMimeType build f = .error e f' := by
    have hlost := @getDirent_lost build a article.idx f hf.serves
    cases hdirent : getDirent build article f with
    | ok d f' =>
      have hout : outcome (FileImpl.getDirent build article.idx f) = .ok d :=
        congrArg outcome hdirent
      rw [hout] at hlost
      split_ifs at hlost <;> cases hlost.1
    | error e f' => exact ⟨e, f', bind_error (bind_error hdirent _) _⟩
  have hask : article.ask (article.getMimeType build) ⟨f, out, []⟩ =
      .error (.file e) ⟨f', out, [article]⟩ := by
    have hfile : onFile (article.getMimeType build) ⟨f, out, [article]⟩ =
        .error (.file e) ⟨f', out, [article]⟩ := by
      rw [onFile, within, hmime]
    rw [ask, if_pos hgood]
    exact bind_error hfile _
  rw [page, bind_error hask]
  refine ⟨fun h => (by cases h), fun article' harticle => ?_⟩
  obtain rfl := List.mem_singleton.mp harticle
  exact hgood

theorem safe_iff {maxRecurse : ℕ} {layout : Bool} {s : Rendering} (hs : Sound build a false s) :
    Safe (getPage build maxRecurse layout article s) ↔
      a.page build maxRecurse layout article ≠ .error .undefined := by
  have hrun := getPage_renders maxRecurse layout article false s hs
  cases hpage : getPage build maxRecurse layout article s with
  | ok v s' =>
    rw [hpage] at hrun
    rw [hrun.1]
    refine iff_of_true ⟨fun h => (by cases h), hrun.2.touched⟩ fun h => by cases h
  | error e s' =>
    rw [hpage] at hrun
    rw [hrun.1 rfl]
    constructor
    · intro hsafe
      exact hsafe.1
    · intro hne
      exact ⟨hne, hrun.2.touched fun heq => hne (heq ▸ rfl)⟩

/-- A page is rendered in safety exactly if all pages that it reaches are present, or if the file
has lost a read. -/
theorem getPage_safe_iff {archive : Bytes} {direntCache clusterCache : ℕ} {f₀ : FileImpl}
    (hnew : FileImpl.new build archive direntCache clusterCache = .ok f₀) (uses : List Use)
    (out : Bytes) (maxRecurse : UInt32) (layout : Bool) (hgood : article.good = true) :
    Safe (getPage build maxRecurse.toNat layout article ⟨Use.after build uses f₀, out, []⟩) ↔
      (Use.after build uses f₀).zimFile.fail = true ∨
        ∀ v, Archive.Reaches build ⟨archive, f₀.header, f₀.mimeTypes⟩
            ⟨maxRecurse.toNat, layout, article⟩ v →
          Archive.Present build ⟨archive, f₀.header, f₀.mimeTypes⟩ v := by
  obtain ⟨lost, hfile⟩ := after_attached uses ⟨false, new_attached hnew⟩
  rw [hfile.fail]
  cases lost with
  | true =>
    refine iff_of_true ?_ (.inl rfl)
    cases maxRecurse.toNat with
    | zero => exact page_lost hfile hgood _ layout out
    | succ n => exact page_lost hfile hgood _ layout out
  | false =>
    have hreaches := @Archive.visit_undefined_iff_reaches build ⟨archive, f₀.header, f₀.mimeTypes⟩
      ⟨maxRecurse.toNat, layout, article⟩ hgood
    rw [safe_iff ⟨hfile, List.forall_mem_nil _⟩, or_iff_right Bool.false_ne_true]
    refine (not_congr hreaches).trans ?_
    simp only [not_exists, not_and, not_not]

section MissingLink

/-- The template `<%/A/b%>`. -/
def missingLink : Bytes := text "<%/A/b%>"

/-- An archive with this template as its only entry. -/
def missingLinkArchive : Bytes :=
  Fileheader.write .little
    { Fileheader.default with
      articleCount := 1, clusterCount := 1, mimeListPos := 80, urlPtrPos := 105,
      titleIdxPos := 113, clusterPtrPos := 117, checksumPos := 161 } ++
  mimeHtmlTemplate ++ [0, 0] ++ LittleEndian.encode 8 125 ++ LittleEndian.encode 4 0 ++
  LittleEndian.encode 8 144 ++
  Zim.Dirent.write .little { Zim.Dirent.new with ns := 65, url := [97] } ++
  [1] ++ LittleEndian.encode 4 8 ++ LittleEndian.encode 4 16 ++ missingLink

theorem getPage_safe_iff_missingLink : ∃ f,
    FileImpl.new .noCodecs missingLinkArchive 2 2 = .ok f ∧
      (Safe (getPage .noCodecs (10 : UInt32).toNat true ⟨0⟩
          ⟨Use.after .noCodecs [.call .getChecksum] f, [], []⟩) ↔
        (Use.after .noCodecs [.call .getChecksum] f).zimFile.fail = true ∨
          ∀ v, Archive.Reaches .noCodecs ⟨missingLinkArchive, f.header, f.mimeTypes⟩
              ⟨(10 : UInt32).toNat, true, ⟨0⟩⟩ v →
            Archive.Present .noCodecs ⟨missingLinkArchive, f.header, f.mimeTypes⟩ v) := by
  have hopens : (FileImpl.new .noCodecs missingLinkArchive 2 2).isOk = true := by decide +kernel
  obtain ⟨f, hnew⟩ := Fallible.exists_ok hopens
  exact ⟨f, hnew, getPage_safe_iff hnew _ _ _ _ (by decide)⟩

/-- The link leads to an article without a file, which is asked for its mime type. -/
theorem not_getPage_safe : ∃ f, FileImpl.new .noCodecs missingLinkArchive 2 2 = .ok f ∧
    (⟨0⟩ : Article).good = true ∧
    ¬ Safe (getPage .noCodecs (10 : UInt32).toNat true ⟨0⟩ ⟨f, [], []⟩) := by
  have hcheck : Fallible.passes (FileImpl.new .noCodecs missingLinkArchive 2 2) (fun f =>
      (state (getPage .noCodecs (10 : UInt32).toNat true ⟨0⟩ ⟨f, [], []⟩)).touched =
        [⟨0⟩, ⟨0⟩, .new]) = true := by decide +kernel
  obtain ⟨f, hnew, htouched⟩ := Fallible.exists_of_passes hcheck
  refine ⟨f, hnew, by decide, fun hsafe => ?_⟩
  have hmem : Article.new ∈ (state (getPage .noCodecs (10 : UInt32).toNat true ⟨0⟩
      ⟨f, [], []⟩)).touched := by
    rw [of_decide_eq_true htouched]
    decide
  exact absurd (hsafe.2 _ hmem) (by decide)

end MissingLink

end Rendered
end Zim
