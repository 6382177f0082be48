import TabMarkup.Proofs.Page.AnyDirectory
import TabMarkup.Proofs.Page.Verdict

/-!
# What failures leave behind

A view that cannot be compiled leaves all files as they are. A document that cannot be kept leaves
new directories at most, on the way to the directory of the kept documents. A document that cannot
be rendered was kept before. All this holds for directories with any names, also where the path of
the kept documents is the path of the view.
-/

namespace TabMarkup

open FileSystem

namespace Page

variable {page : Page} {files left : FileSystem} {name clean text : String} {time : Time}
  {error : PageError}

/-- The errors of a view that is not there or does not compile. -/
inductive NotCompiled (page : Page) (name : String) : PageError → Prop
  | invalidViewName (other : String) : NotCompiled page name (.invalidViewName other)
  | file {clean : String} (hclean : ViewName.sanitize? name = some clean) (error : FileError) :
    NotCompiled page name (.file (page.viewPath clean) error)
  | compile (path : String) (error : ParseError) : NotCompiled page name (.compile path error)

/-- The errors of a composed document for which there is no directory, or that is not written. -/
inductive NotKept (page : Page) (name : String) : PageError → Prop
  | directory (error : FileError) : NotKept page name (.file page.config.cacheDir error)
  | document {clean : String} (hclean : ViewName.sanitize? name = some clean) (error : FileError) :
    NotKept page name (.file (page.cachePath clean) error)

/-! ## Failures before and after the verdict -/

/-- Where the verdict is an error already, the view is not there or does not compile. -/
theorem notCompiled_of_verdict (h : page.verdict files name = .answer (.error error)) :
    page.NotCompiled name error := by
  unfold verdict at h
  split at h
  · cases h
    exact .invalidViewName name
  · rename_i clean hclean
    split at h
    · rename_i error' hstat
      cases h
      exact .file hclean error'
    · rename_i view hstat
      split at h
      · cases h
      · unfold verdictOn at h
        split at h
        · cases h
          exact .compile _ _
        · split at h
          · cases h
            exact .compile _ _
          · cases h

/-- A document is not kept where its directory cannot be made, or where it cannot be written then.
Only making the directory leaves something behind. -/
theorem keep_error (h : page.keep files clean text time = (.error error, left)) :
    left = (files.makeDirectories (names page.config.cacheDir)).2 ∧
      ∃ error', error = .file page.config.cacheDir error' ∨
        error = .file (page.cachePath clean) error' := by
  rcases keep_result page files clean text time with
    ⟨path, error', hpath, hkeep⟩ | ⟨written, _, hkeep⟩
  · rw [h] at hkeep
    cases hkeep
    exact ⟨rfl, error', hpath.imp (congrArg (PageError.file · error'))
      (congrArg (PageError.file · error'))⟩
  · rw [h] at hkeep
    cases hkeep

/-- A view never stands at the path of its kept document. -/
theorem viewPath_ne_cachePath (page : Page) (hclean : ViewName.sanitize? name = some clean) :
    page.viewPath clean ≠ page.cachePath clean := by
  intro heq
  obtain ⟨before, hview, _⟩ := exists_names_join page.config.viewDir (ViewName.fileName hclean)
  obtain ⟨before', hdocument, _⟩ :=
    exists_names_join page.config.cacheDir (ViewName.documentName hclean)
  have hsame : before ++ [clean] = before' ++ [clean ++ ".html"] :=
    hview.symm.trans ((congrArg names heq).trans hdocument)
  exact ViewName.ne_append_html clean (List.singleton_inj.mp (List.append_inj' hsame rfl).2)

/-- If a failure to keep a document looks like one of its view, then the directory of the kept
documents was to be made at the path of the view. The view is there, and so nothing was made. -/
theorem keep_error_of_notCompiled (hclean : ViewName.sanitize? name = some clean) {view : Entry}
    (hstat : files.stat (page.viewPath clean) = .ok view)
    (h : page.keep files clean text time = (.error error, left))
    (herror : page.NotCompiled name error) : left = files := by
  obtain ⟨hleft, error', hdirectory | hdocument⟩ := keep_error h
  · subst hdirectory
    generalize hpath : page.config.cacheDir = path at herror
    cases herror with
    | @file clean' hclean' =>
      rw [hclean] at hclean'
      cases hclean'
      rw [hleft, hpath]
      exact makeDirectories_of_stat hstat
  · subst hdocument
    generalize hpath : page.cachePath clean = path at herror
    cases herror with
    | @file clean' hclean' =>
      rw [hclean] at hclean'
      cases hclean'
      exact absurd hpath.symm (page.viewPath_ne_cachePath hclean)

/-! ## What is left -/

theorem result_and_files_compile {result : Except PageError String}
    (hresult : (page.compile files name).result = result) :
    page.carryOut files (page.verdict files name) = (result, (page.compile files name).files) := by
  rw [← compile_eq, hresult]

/-- An error of the view, or one on the way to its document, leaves everything as it was or adds
directories. -/
theorem compile_error (hresult : (page.compile files name).result = .error error) :
    (page.NotCompiled name error ∨ page.NotKept name error) ∧
      (page.NotCompiled name error → (page.compile files name).files = files) ∧
      OnlyAddsAt (PassesThrough (names page.config.cacheDir)) files
        (page.compile files name).files := by
  have hcarried := result_and_files_compile hresult
  generalize (page.compile files name).files = left at hcarried ⊢
  cases hverdict : page.verdict files name with
  | answer result =>
    rw [hverdict] at hcarried
    cases hcarried
    exact ⟨Or.inl (notCompiled_of_verdict hverdict), fun _ => rfl, OnlyAddsAt.refl _ _⟩
  | document clean text time =>
    rw [hverdict] at hcarried
    have hkeep : page.keep files clean text time = (.error error, left) := hcarried
    obtain ⟨hclean, bytes, hstat, _⟩ := exists_of_verdict hverdict
    refine ⟨Or.inr ?_, keep_error_of_notCompiled hclean hstat hkeep, ?_⟩
    · obtain ⟨_, error', rfl | rfl⟩ := keep_error hkeep
      · exact .directory error'
      · exact .document hclean error'
    · rw [(keep_error hkeep).1]
      exact onlyAddsAt_makeDirectories files _

/-- What cannot be rendered was compiled. -/
theorem exists_compile_of_view_render {error : RenderError}
    (h : (page.view files name).result = .error (.render error)) :
    ∃ path, (page.compile files name).result = .ok path := by
  cases hcompiled : (page.compile files name).result with
  | ok path => exact ⟨path, rfl⟩
  | error error' =>
    rw [view_error hcompiled] at h
    cases h
    obtain ⟨hnot | hnot, _⟩ := compile_error hcompiled
    · cases hnot
    · cases hnot

/-- A page that fails leaves no file changed, made or removed. If there is no view to compile, or it
does not compile, then everything is as before. Any other failure to compile it is one of keeping
its document, and only directories are new, where the path of the kept documents passes through. A
view that is compiled but cannot be rendered leaves what compiling it left. -/
theorem files_of_failure (page : Page) (files : FileSystem) (name : String) :
    (∀ error, (page.compile files name).result = .error error →
      (page.NotCompiled name error ∨ page.NotKept name error) ∧
      (page.NotCompiled name error → (page.compile files name).files = files) ∧
      OnlyAddsAt (PassesThrough (names page.config.cacheDir)) files
        (page.compile files name).files) ∧
    ∀ error, (page.view files name).result = .error (.render error) →
      (∃ path, (page.compile files name).result = .ok path) ∧
      (page.view files name).files = (page.compile files name).files :=
  ⟨fun _ => compile_error,
    fun _ hresult => ⟨exists_compile_of_view_render hresult, files_view page files name⟩⟩

/-- On the way to the directory `new/../taken/kept`, the directory `new` is made before it is seen
that `taken` is a file. A view that does not compile leaves its older document, and a document that
opens a directive and never closes it is left as it was kept. -/
theorem files_of_failure_of_index :
    (∃ (page : Page) (files : FileSystem),
      (page.compile files "index").result = .error (.file "new/../taken/kept" .alreadyExists) ∧
      files.look? ["new"] = none ∧
      (page.compile files "index").files.look? ["new"] = some .directory ∧
      OnlyAddsAt (PassesThrough ["new", "..", "taken", "kept"]) files
        (page.compile files "index").files) ∧
    (∃ (page : Page) (files : FileSystem),
      (page.compile files "index").result =
        .error (.compile "views/index" ⟨.malformedEmbedding, 1⟩) ∧
      files.look? ["cache", "index.html"] = some (.file [0x6f, 0x6c, 0x64] ⟨1, 0⟩) ∧
      (page.compile files "index").files = files) ∧
    ∃ (page : Page) (files : FileSystem),
      (page.view files "index").result = .error (.render (.unclosedDirective 0)) ∧
      (page.view files "index").files = (page.compile files "index").files := by
  let views (text : String) (time : Time) : String × Entry :=
    ("views", .directory none ⟨[("index", .file text.toUTF8.toList time)]⟩)
  refine ⟨⟨{ viewName := "index", config := { cacheDir := "new/../taken/kept" } },
      ⟨.directory none ⟨[views "p|one\n" ⟨1, 0⟩, ("taken", .file [] ⟨1, 0⟩)]⟩⟩, ?_⟩,
    ⟨{ viewName := "index" }, ⟨.directory none ⟨[views "\x7b\x7bnone\n" ⟨2, 0⟩,
      ("cache", .directory none ⟨[("index.html", .file [0x6f, 0x6c, 0x64] ⟨1, 0⟩)]⟩)]⟩⟩, ?_⟩,
    ⟨{ viewName := "index" },
      ⟨.directory none ⟨[views "p|one\n" ⟨1, 0⟩,
        ("cache", .directory none ⟨[("index.html", .file "<%=".toUTF8.toList ⟨1, 0⟩)]⟩)]⟩⟩, ?_⟩⟩
  · refine ⟨by decide +kernel, by decide +kernel, by decide +kernel, ?_⟩
    exact ((files_of_failure _ _ "index").1 (.file "new/../taken/kept" .alreadyExists)
      (by decide +kernel)).2.2
  · refine ⟨by decide +kernel, by decide +kernel, ?_⟩
    exact ((files_of_failure _ _ "index").1 (.compile "views/index" ⟨.malformedEmbedding, 1⟩)
      (by decide +kernel)).2.1 (.compile _ _)
  · refine ⟨by decide +kernel, ?_⟩
    exact ((files_of_failure _ _ "index").2 (.unclosedDirective 0) (by decide +kernel)).2

end Page

end TabMarkup
