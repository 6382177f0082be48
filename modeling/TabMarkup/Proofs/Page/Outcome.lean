import TabMarkup.Proofs.Page.Places

/-!
# What compiling a view comes to

Every way in which the compilation of a view can end, with what it answers and what it leaves of
the files. It changes nothing but the directories on the way to the kept documents and the kept
document of its view.
-/

namespace TabMarkup

open FileSystem

/-- The bytes of a view can be compiled, and this is their composed document. -/
def Composes (bytes : List UInt8) (document : String) : Prop :=
  ∃ fragments, (Compilation.run (Source.ofBytes bytes) (some bytes.length)).result = .ok fragments ∧
    fragments.compose = document

/-- What compiles has one composed document. -/
theorem Composes.unique {bytes : List UInt8} {document other : String}
    (h : Composes bytes document) (h' : Composes bytes other) : document = other := by
  obtain ⟨fragments, hresult, rfl⟩ := h
  obtain ⟨fragments', hresult', rfl⟩ := h'
  rw [hresult] at hresult'
  cases hresult'
  rfl

namespace Page

variable {page : Page} {files files' : FileSystem} {name clean path : String}

/-- The ways in which the compilation of a view can end: its answer, and the files afterwards. -/
inductive Outcome (page : Page) (files : FileSystem) (name : String) :
    Except PageError String → FileSystem → Prop
  | refused (hclean : ViewName.sanitize? name = none) :
    Outcome page files name (.error (.invalidViewName name)) files
  | absent {clean : String} {error : FileError} (hclean : ViewName.sanitize? name = some clean)
    (hstat : files.stat (page.viewPath clean) = .error error) :
    Outcome page files name (.error (.file (page.viewPath clean) error)) files
  | current {clean : String} {view : Entry} (hclean : ViewName.sanitize? name = some clean)
    (hstat : files.stat (page.viewPath clean) = .ok view)
    (hcurrent : isCurrent files (page.cachePath clean) view = true) :
    Outcome page files name (.ok (page.cachePath clean)) files
  | failed {clean : String} {view : Entry} {error : ParseError}
    (hclean : ViewName.sanitize? name = some clean)
    (hstat : files.stat (page.viewPath clean) = .ok view)
    (herror : (compileEntry (page.viewPath clean) view).result = .error error) :
    Outcome page files name (.error (.compile (page.viewPath clean) error)) files
  | unkept {clean path : String} {bytes : List UInt8} {time : Time} {document : String}
    {error : FileError} {made : FileSystem} (hclean : ViewName.sanitize? name = some clean)
    (hstat : files.stat (page.viewPath clean) = .ok (.file bytes time))
    (hcomposes : Composes bytes document)
    (hmade : OnlyAdds (names page.config.cacheDir) files made) :
    Outcome page files name (.error (.file path error)) made
  | kept {clean : String} {bytes : List UInt8} {time : Time} {document : String}
    {made files' : FileSystem} (hclean : ViewName.sanitize? name = some clean)
    (hstat : files.stat (page.viewPath clean) = .ok (.file bytes time))
    (hcomposes : Composes bytes document)
    (hmade : OnlyAdds (names page.config.cacheDir) files made)
    (hwrite : made.write (page.cachePath clean) (Utf8.encode document.toList) time = .ok files') :
    Outcome page files name (.ok (page.cachePath clean)) files'

/-- A document that composes a view is kept, or there is an error on the way. -/
theorem outcome_keep (hcache : PlainPath page.config.cacheDir)
    (hclean : ViewName.sanitize? name = some clean) {bytes : List UInt8} {time : Time}
    {document : String} (hstat : files.stat (page.viewPath clean) = .ok (.file bytes time))
    (hcomposes : Composes bytes document) :
    Outcome page files name (page.keep files clean document time).1
      (page.keep files clean document time).2 := by
  have hmade := onlyAdds_makeDirectories files hcache
  unfold keep
  split
  · rename_i error made heq
    rw [heq] at hmade
    exact .unkept hclean hstat hcomposes hmade
  · rename_i made heq
    rw [heq] at hmade
    dsimp only
    split
    · exact .unkept hclean hstat hcomposes hmade
    · rename_i written hwrite
      exact .kept hclean hstat hcomposes hmade hwrite

/-- A view that is compiled anew fails or is kept. -/
theorem outcome_recompile (hcache : PlainPath page.config.cacheDir)
    (hclean : ViewName.sanitize? name = some clean) {view : Entry}
    (hstat : files.stat (page.viewPath clean) = .ok view) :
    Outcome page files name (page.recompile files clean view).result
      (page.recompile files clean view).files := by
  unfold recompile
  dsimp only
  split
  · exact .failed hclean hstat rfl
  · rename_i bytes time
    split
    · rename_i error herror
      exact .failed hclean hstat herror
    · rename_i fragments hresult
      exact outcome_keep hcache hclean hstat ⟨fragments, hresult, rfl⟩

/-- Compiling a view ends in one of these ways. -/
theorem outcome_compile (hcache : PlainPath page.config.cacheDir) (files : FileSystem)
    (name : String) :
    Outcome page files name (page.compile files name).result (page.compile files name).files := by
  unfold compile
  split
  · rename_i hclean
    exact .refused hclean
  · rename_i clean hclean
    split
    · rename_i error hstat
      exact .absent hclean hstat
    · rename_i view hstat
      dsimp only
      split
      · rename_i hcurrent
        exact .current hclean hstat hcurrent
      · exact outcome_recompile hcache hclean hstat

/-! ## What is changed -/

/-- No view is changed, and a kept document only to what its view composes to, at the time of its
view. -/
structure CacheChanged (page : Page) (files files' : FileSystem) : Prop where
  views : ∀ name, files'.look? (page.viewPlace name) = files.look? (page.viewPlace name)
  documents : ∀ clean, files'.look? (page.cachePlace clean) = files.look? (page.cachePlace clean) ∨
    ∃ bytes time document, files.stat (page.viewPath clean) = .ok (.file bytes time) ∧
      Composes bytes document ∧
      files'.look? (page.cachePlace clean) = some (.file (Utf8.encode document.toList) time)

theorem CacheChanged.refl (page : Page) (files : FileSystem) : page.CacheChanged files files where
  views := fun _ => rfl
  documents := fun _ => Or.inl rfl

/-- Directories on the way to the kept documents change neither views nor kept documents. -/
theorem CacheChanged.of_onlyAdds (h : page.DirectoriesApart)
    (hadds : OnlyAdds (names page.config.cacheDir) files files') :
    page.CacheChanged files files' where
  views := fun name => hadds.look?_eq (h.viewPlace_not_prefix_cacheDir name)
  documents := fun clean => Or.inl (hadds.look?_eq (page.cachePlace_not_prefix_cacheDir clean))

theorem Outcome.cacheChanged (h : page.DirectoriesApart) {result : Except PageError String}
    (houtcome : Outcome page files name result files') : page.CacheChanged files files' := by
  cases houtcome with
  | refused hclean => exact .refl page files
  | absent hclean hstat => exact .refl page files
  | current hclean hstat hcurrent => exact .refl page files
  | failed hclean hstat herror => exact .refl page files
  | unkept hclean hstat hcomposes hmade => exact .of_onlyAdds h hmade
  | @kept clean bytes time document made _ hclean hstat hcomposes hmade hwrite =>
    have hadds := CacheChanged.of_onlyAdds h hmade
    obtain ⟨trail, hlocate, _, hfile, honly⟩ := write_ok hwrite
    have haddress : address trail = page.cachePlace clean := by
      rw [address_of_locate (h.plainPath_cachePath hclean) hlocate, h.names_cachePath hclean]
    rw [haddress] at hfile honly
    constructor
    · intro other
      rw [honly _ (h.viewPlace_ne_cachePlace other clean), hadds.views other]
    · intro other
      by_cases hother : other = clean
      · subst hother
        exact Or.inr ⟨bytes, time, document, hstat, hcomposes, hfile⟩
      · rw [honly _ fun heq => hother (cachePlace_inj.mp heq)]
        exact hadds.documents other

/-! ## Rendering -/

/-- Pages with the same directories compile in the same way. -/
theorem compile_congr {other : Page} (h : other.config = page.config) :
    other.compile = page.compile := by
  cases other
  cases h
  rfl

theorem viewPath_congr {other : Page} (h : other.config = page.config) :
    other.viewPath = page.viewPath := by
  funext clean
  rw [viewPath, viewPath, h]

theorem cachePath_congr {other : Page} (h : other.config = page.config) :
    other.cachePath = page.cachePath := by
  funext clean
  rw [cachePath, cachePath, h]

/-- Rendering a view leaves the files that compiling it leaves. -/
theorem files_view (page : Page) (files : FileSystem) (name : String) :
    (page.view files name).files = (page.compile files name).files := by
  unfold view
  dsimp only
  split
  · rfl
  · split <;> rfl

/-- What is wrong with compiling a view is wrong with showing it. -/
theorem view_error {error : PageError} (h : (page.compile files name).result = .error error) :
    (page.view files name).result = .error error := by
  unfold view
  dsimp only
  rw [h]

/-- What is shown of a view is the rendered form of its kept document. -/
theorem view_ok {text : String} (h : (page.view files name).result = .ok text) :
    ∃ path document, (page.compile files name).result = .ok path ∧
      readDocument (page.compile files name).files path = .ok document ∧
      (render document page.bindings page.statics).text = .ok text := by
  unfold view at h
  dsimp only at h
  split at h
  · cases h
  · rename_i path hpath
    split at h
    · cases h
    · rename_i document hdocument
      refine ⟨path, document, hpath, hdocument, ?_⟩
      cases hrender : (render document page.bindings page.statics).text with
      | ok text' =>
        rw [hrender] at h
        cases h
        rfl
      | error error =>
        rw [hrender] at h
        cases h

end Page

end TabMarkup
