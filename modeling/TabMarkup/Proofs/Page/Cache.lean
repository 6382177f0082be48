import TabMarkup.Proofs.Page.Session
import TabMarkup.Proofs.Text.Encoding

/-!
# What is kept is current

In a run in which the time of a view tells its content, a page never answers with an old document.
Each kept document comes from a moment of the run at which its view had the time that the document
has now; so where the times agree, the view has the same content again.
-/

namespace TabMarkup

open FileSystem

namespace Session

/-- Whenever the file of one view has the same time at two moments of a run, it has the same
content at both. -/
def TimesTell (page : Page) (acts : List Act) : Prop :=
  ∀ before after, before <+: acts → after <+: acts →
    ∀ name clean, ViewName.sanitize? name = some clean → ∀ bytes bytes' time,
      (run page before).files.stat (page.viewPath clean) = .ok (.file bytes time) →
      (run page after).files.stat (page.viewPath clean) = .ok (.file bytes' time) →
      bytes = bytes'

/-- What stands at a kept document is what its view composed to at a moment of the run, at the time
that the view had then. -/
def KeptFrom (page : Page) (acts : List Act) (clean : String) (kind : Kind) : Prop :=
  ∃ before, before <+: acts ∧ ∃ bytes time document,
    (run page before).files.stat (page.viewPath clean) = .ok (.file bytes time) ∧
    Composes bytes document ∧ kind = .file (Utf8.encode document.toList) time

theorem KeptFrom.concat {page : Page} {acts : List Act} {clean : String} {kind : Kind}
    (h : KeptFrom page acts clean kind) (act : Act) :
    KeptFrom page (acts ++ [act]) clean kind := by
  obtain ⟨before, hbefore, hdocument⟩ := h
  exact ⟨before, hbefore.trans (List.prefix_append acts [act]), hdocument⟩

/-- What is true of a page with its files at the end of every run: no directory stands at a view,
and every kept document is from a moment of the run. -/
structure Faithful (page : Page) (acts : List Act) : Prop where
  directories : ∀ name, (run page acts).files.look? (page.viewPlace name) ≠ some .directory
  documents : ∀ clean kind, (run page acts).files.look? (page.cachePlace clean) = some kind →
    KeptFrom page acts clean kind

theorem faithful_nil (page : Page) : Faithful page [] where
  directories := by
    intro name
    rw [run, List.foldl_nil, look?_empty (by simp [Page.viewPlace])]
    simp
  documents := by
    intro clean kind hkind
    rw [run, List.foldl_nil, look?_empty (by simp [Page.cachePlace])] at hkind
    cases hkind

/-- One more act leaves a faithful session faithful: what it keeps is of this moment, and all else
that is kept is of an earlier one. -/
theorem Faithful.concat {page : Page} (h : page.DirectoriesApart) {acts : List Act}
    (hfaithful : Faithful page acts) (act : Act) : Faithful page (acts ++ [act]) := by
  rcases run_concat_changed h acts act with hviews | hcache
  · constructor
    · intro name hdirectory
      rcases hviews.views name .directory hdirectory with hbefore | ⟨_, _, _, _, hkind, _⟩
      · exact hfaithful.directories name hbefore
      · cases hkind
    · intro clean kind hkind
      rw [hviews.documents] at hkind
      exact (hfaithful.documents clean kind hkind).concat act
  · constructor
    · intro name
      rw [hcache.views]
      exact hfaithful.directories name
    · intro clean kind hkind
      rcases hcache.documents clean with hsame | ⟨bytes, time, document, hstat, hcomposes, hkept⟩
      · rw [hsame] at hkind
        exact (hfaithful.documents clean kind hkind).concat act
      · rw [hkept] at hkind
        cases hkind
        exact ⟨acts, List.prefix_append acts [act], bytes, time, document, hstat, hcomposes, rfl⟩

/-- Every run is faithful. -/
theorem faithful {page : Page} (h : page.DirectoriesApart) (acts : List Act) :
    Faithful page acts := by
  induction acts using List.reverseRecOn with
  | nil => exact faithful_nil page
  | append_singleton acts act ih => exact ih.concat h act

/-! ## Times that tell -/

/-- Without touches, a view has the bytes and the time of one of its writes. -/
theorem written_of_look? {page : Page} (h : page.DirectoriesApart) {acts : List Act}
    (htouch : ∀ name time, .touch name time ∉ acts) {name : String} {bytes : List UInt8}
    {time : Time}
    (hfile : (run page acts).files.look? (page.viewPlace name) = some (.file bytes time)) :
    ∃ view : FileName, view.text = name ∧ .write view bytes time ∈ acts := by
  induction acts using List.reverseRecOn with
  | nil =>
    rw [run, List.foldl_nil, look?_empty (by simp [Page.viewPlace])] at hfile
    cases hfile
  | append_singleton acts act ih =>
    have hearlier : (run page acts).files.look? (page.viewPlace name) = some (.file bytes time) →
        ∃ view : FileName, view.text = name ∧ .write view bytes time ∈ acts ++ [act] := by
      intro hbefore
      obtain ⟨view, hname, hmem⟩ :=
        ih (fun name time hmem => htouch name time (List.mem_append_left _ hmem)) hbefore
      exact ⟨view, hname, List.mem_append_left _ hmem⟩
    rcases run_concat_changed h acts act with hviews | hcache
    · rcases hviews.views name _ hfile with
        hbefore | ⟨view, hname, bytes', time', hkind, hwrite | htouched⟩
      · exact hearlier hbefore
      · cases hkind
        exact ⟨view, hname, by simp [hwrite]⟩
      · exact absurd (by simp [htouched]) (htouch view time')
    · rw [hcache.views] at hfile
      exact hearlier hfile

/-- Times tell where no view is touched, and no time is written with two contents. -/
theorem timesTell_of_writes {page : Page} (h : page.DirectoriesApart) {acts : List Act}
    (htouch : ∀ name time, .touch name time ∉ acts)
    (hwrites : ∀ name bytes bytes' time, .write name bytes time ∈ acts →
      .write name bytes' time ∈ acts → bytes = bytes') : TimesTell page acts := by
  intro before after hbefore hafter name clean hclean bytes bytes' time hstat hstat'
  have hwritten : ∀ {moment bytes}, moment <+: acts →
      (run page moment).files.stat (page.viewPath clean) = .ok (.file bytes time) →
      .write (ViewName.fileName hclean) bytes time ∈ acts := by
    intro moment bytes hmoment hstat
    have hplace := look?_of_stat (h.plainPath_viewPath (ViewName.fileName hclean)) hstat
    rw [h.names_viewPath] at hplace
    obtain ⟨view, hname, hmem⟩ := written_of_look? h
      (fun name time hmem => htouch name time (hmoment.subset hmem)) hplace
    obtain rfl : view = ViewName.fileName hclean := FileName.ext hname
    exact hmoment.subset hmem
  exact hwrites _ _ _ time (hwritten hbefore hstat) (hwritten hafter hstat')

/-! ## Answers -/

variable {page : Page} {acts : List Act} {name clean : String}

/-- A kept document at the time of its view is what the view composes to. -/
theorem composes_of_isCurrent (h : page.DirectoriesApart) (htimes : TimesTell page acts)
    (hclean : ViewName.sanitize? name = some clean) {view : Entry}
    (hstat : (run page acts).files.stat (page.viewPath clean) = .ok view)
    (hcurrent : Page.isCurrent (run page acts).files (page.cachePath clean) view = true) :
    ∃ bytes time document, view = .file bytes time ∧ Composes bytes document ∧
      (run page acts).files.readBytes (page.cachePath clean) =
        .ok (Utf8.encode document.toList) := by
  have hfaithful := faithful h acts
  cases view with
  | directory time? contents =>
    have hplace := look?_of_stat (h.plainPath_viewPath (ViewName.fileName hclean)) hstat
    rw [h.names_viewPath (ViewName.fileName hclean)] at hplace
    exact absurd hplace (hfaithful.directories clean)
  | file bytes time =>
    unfold Page.isCurrent at hcurrent
    split at hcurrent
    · cases hcurrent
    · rename_i cached hcached
      have hplace := look?_of_stat (h.plainPath_cachePath hclean) hcached
      rw [h.names_cachePath hclean] at hplace
      obtain ⟨before, hbefore, bytes', time', document, hview, hcomposes, hkind⟩ :=
        hfaithful.documents clean cached.kind hplace
      rw [Entry.eq_file_of_kind hkind] at hcached hcurrent
      have htime : time' = time := by
        simpa [Entry.time?] using hcurrent
      subst htime
      have hbytes : bytes' = bytes :=
        htimes before acts hbefore (List.prefix_refl acts) name clean hclean bytes' bytes time'
          hview hstat
      subst hbytes
      refine ⟨bytes', time', document, rfl, hcomposes, ?_⟩
      rw [readBytes, hcached]
      rfl

/-- Where compiling a view answers with a path, the view compiles, and what it composes to is at
that path afterwards. -/
theorem compile_ok (h : page.DirectoriesApart) (htimes : TimesTell page acts) {path : String}
    (hok : (page.compile (run page acts).files name).result = .ok path) :
    ∃ clean bytes time document, ViewName.sanitize? name = some clean ∧
      path = page.cachePath clean ∧
      (run page acts).files.stat (page.viewPath clean) = .ok (.file bytes time) ∧
      Composes bytes document ∧
      (page.compile (run page acts).files name).files.readBytes path =
        .ok (Utf8.encode document.toList) := by
  have houtcome := Page.outcome_compile h.plainCache (run page acts).files name
  rw [hok] at houtcome
  generalize (page.compile (run page acts).files name).files = files at houtcome
  cases houtcome with
  | current hclean hstat hcurrent =>
    obtain ⟨bytes, time, document, rfl, hcomposes, hread⟩ :=
      composes_of_isCurrent h htimes hclean hstat hcurrent
    exact ⟨_, bytes, time, document, hclean, rfl, hstat, hcomposes, hread⟩
  | kept hclean hstat hcomposes hmade hwrite =>
    refine ⟨_, _, _, _, hclean, rfl, hstat, hcomposes, ?_⟩
    rw [readBytes, stat_of_write hwrite]
    rfl

/-- A file that compiles has a result that composes to its document. -/
theorem compileFile_of_composes {files : FileSystem} {path : String} {bytes : List UInt8}
    {time : Time} {document : String} (hstat : files.stat path = .ok (.file bytes time))
    (hcomposes : Composes bytes document) :
    ∃ fragments, (compileFile files path).result = .ok fragments ∧
      fragments.compose = document := by
  rw [compileFile, hstat]
  exact hcomposes

/-- Where a view is absent or does not compile, compiling it answers with an error about its file
or about its text. -/
theorem compile_error (h : page.DirectoriesApart) (htimes : TimesTell page acts)
    (hclean : ViewName.sanitize? name = some clean) {error : ParseError}
    (herror : (compileFile (run page acts).files (page.viewPath clean)).result = .error error) :
    (∃ path error, (page.compile (run page acts).files name).result = .error (.file path error)) ∨
      ∃ path error, (page.compile (run page acts).files name).result =
        .error (.compile path error) := by
  have hfails : ∀ {bytes time document},
      (run page acts).files.stat (page.viewPath clean) = .ok (.file bytes time) →
      ¬ Composes bytes document := by
    intro bytes time document hstat hcomposes
    obtain ⟨fragments, hresult, _⟩ := compileFile_of_composes hstat hcomposes
    rw [hresult] at herror
    cases herror
  have houtcome := Page.outcome_compile h.plainCache (run page acts).files name
  generalize (page.compile (run page acts).files name).result = result at houtcome ⊢
  generalize (page.compile (run page acts).files name).files = files at houtcome
  cases houtcome with
  | refused hnone =>
    rw [hnone] at hclean
    cases hclean
  | absent hclean' hstat => exact Or.inl ⟨_, _, rfl⟩
  | @current clean' view hclean' hstat hcurrent =>
    rw [hclean'] at hclean
    cases hclean
    obtain ⟨bytes, time, document, rfl, hcomposes, _⟩ :=
      composes_of_isCurrent h htimes hclean' hstat hcurrent
    exact absurd hcomposes (hfails hstat)
  | failed hclean' hstat herror' => exact Or.inr ⟨_, _, rfl⟩
  | unkept hclean' hstat hcomposes hmade => exact Or.inl ⟨_, _, rfl⟩
  | @kept clean' bytes time document made _ hclean' hstat hcomposes hmade hwrite =>
    rw [hclean'] at hclean
    cases hclean
    exact absurd hcomposes (hfails hstat)

/-- A document that was kept is read as the same text. -/
theorem readDocument_of_readBytes {files : FileSystem} {path document text : String}
    (hbytes : files.readBytes path = .ok (Utf8.encode document.toList))
    (htext : Page.readDocument files path = .ok text) : text = document := by
  rw [Page.readDocument, hbytes] at htext
  dsimp only at htext
  rw [Utf8.decode?_encode] at htext
  cases htext
  exact String.ofList_toList

/-- No stale document is ever served. At every moment of every run in which the time of a view
tells its content, compiling a view leaves at the path that it answers with what the view composes
to now, and showing it answers with the rendered form of that; and where the view is absent or does
not compile, both answer with an error about its file or about its text. -/
theorem serves_current (h : page.DirectoriesApart) (htimes : TimesTell page acts) {s : Session}
    (hrun : run page acts = s) (name : String) :
    (∀ path, (s.page.compile s.files name).result = .ok path →
      ∃ clean fragments, ViewName.sanitize? name = some clean ∧ path = s.page.cachePath clean ∧
        (compileFile s.files (s.page.viewPath clean)).result = .ok fragments ∧
        (s.page.compile s.files name).files.readBytes path =
          .ok (Utf8.encode fragments.compose.toList)) ∧
      (∀ text, (s.page.view s.files name).result = .ok text →
        ∃ clean fragments, ViewName.sanitize? name = some clean ∧
          (compileFile s.files (s.page.viewPath clean)).result = .ok fragments ∧
          (render fragments.compose s.page.bindings s.page.statics).text = .ok text) ∧
      ∀ clean error, ViewName.sanitize? name = some clean →
        (compileFile s.files (s.page.viewPath clean)).result = .error error →
        ∃ error, (s.page.compile s.files name).result = .error error ∧
          (s.page.view s.files name).result = .error error ∧
          ((∃ path cause, error = .file path cause) ∨
            ∃ path cause, error = .compile path cause) := by
  have hconfig := config_run page acts
  subst hrun
  have hcompile := Page.compile_congr hconfig
  have hview := Page.viewPath_congr hconfig
  have hcache := Page.cachePath_congr hconfig
  refine ⟨fun path hok => ?_, fun text htext => ?_, fun clean error hclean herror => ?_⟩
  · rw [hcompile] at hok ⊢
    obtain ⟨clean, bytes, time, document, hclean, hpath, hstat, hcomposes, hread⟩ :=
      compile_ok h htimes hok
    obtain ⟨fragments, hresult, rfl⟩ := compileFile_of_composes hstat hcomposes
    rw [hview, hcache]
    exact ⟨clean, fragments, hclean, hpath, hresult, hread⟩
  · obtain ⟨path, document, hok, hdocument, hrender⟩ := Page.view_ok htext
    rw [hcompile] at hok hdocument
    obtain ⟨clean, bytes, time, document', hclean, _, hstat, hcomposes, hread⟩ :=
      compile_ok h htimes hok
    have hsame := readDocument_of_readBytes hread hdocument
    subst hsame
    obtain ⟨fragments, hresult, rfl⟩ := compileFile_of_composes hstat hcomposes
    rw [hview]
    exact ⟨clean, fragments, hclean, hresult, hrender⟩
  · rw [hview] at herror
    have hcases := compile_error h htimes hclean herror
    rw [← hcompile] at hcases
    rcases hcases with ⟨path, cause, hresult⟩ | ⟨path, cause, hresult⟩
    · exact ⟨_, hresult, Page.view_error hresult, Or.inl ⟨path, cause, rfl⟩⟩
    · exact ⟨_, hresult, Page.view_error hresult, Or.inr ⟨path, cause, rfl⟩⟩

/-- A view that is written anew is not shown as it was kept: its texts are `p|x` and `p|y`. -/
theorem serves_current_after_change :
    ∃ index s, index.text = "index" ∧
      run { viewName := "index" } [.write index [0x70, 0x7C, 0x78, 0x0A] ⟨1, 0⟩, .output,
        .write index [0x70, 0x7C, 0x79, 0x0A] ⟨2, 0⟩] = s ∧
      (s.page.view s.files "index").result = .ok "<p>y</p>\n" ∧
      ∃ clean fragments, ViewName.sanitize? "index" = some clean ∧
        (compileFile s.files (s.page.viewPath clean)).result = .ok fragments ∧
        (render fragments.compose s.page.bindings s.page.statics).text = .ok "<p>y</p>\n" := by
  have hdirectories : ({ viewName := "index" } : Page).DirectoriesApart :=
    ⟨by decide +kernel, by decide +kernel, by decide +kernel, by decide +kernel⟩
  refine ⟨⟨"index", by decide, by decide⟩, _, rfl, rfl, by decide +kernel, ?_⟩
  refine (serves_current hdirectories ?_ rfl "index").2.1 _ (by decide +kernel)
  refine timesTell_of_writes hdirectories (by simp) fun name bytes bytes' time hmem hmem' => ?_
  simp only [List.mem_cons, Act.write.injEq, reduceCtorEq, List.not_mem_nil, or_false,
    false_or] at hmem hmem'
  rcases hmem with ⟨_, rfl, rfl⟩ | ⟨_, rfl, rfl⟩
  all_goals
    simp at hmem'
    exact hmem'.2.symm

end Session

end TabMarkup
