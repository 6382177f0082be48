import TabMarkup.Proofs.FileSystem.Writing
import TabMarkup.Proofs.Page.Outcome

/-!
# Compiling in two steps

Compiling a view first comes to a verdict, which changes no file: an answer, or a document to keep.
Then the document is kept. The verdict sees no more than what stands at the view and when the kept
document was changed, and keeping a document sees no more than its directory and its place.
-/

namespace TabMarkup

open FileSystem

namespace Page

variable {page : Page} {files files' : FileSystem} {name clean text path : String} {time : Time}

/-! ## The verdict -/

/-- What compiling a view comes to before anything is changed. -/
inductive Verdict where
  | answer (result : Except PageError String)
  /-- The view was composed, and its document is to be kept at this time. -/
  | document (clean text : String) (time : Time)

/-- The verdict on what stands at a view, if it has no current document. -/
def verdictOn (page : Page) (clean : String) (view : Entry) : Verdict :=
  match view with
  | .directory .. => .answer (.error (.compile (page.viewPath clean) (refusal .isDirectory)))
  | .file _ time =>
    match (compileEntry (page.viewPath clean) view).result with
    | .error error => .answer (.error (.compile (page.viewPath clean) error))
    | .ok fragments => .document clean fragments.compose time

/-- The verdict on a view. -/
def verdict (page : Page) (files : FileSystem) (name : String) : Verdict :=
  match ViewName.sanitize? name with
  | none => .answer (.error (.invalidViewName name))
  | some clean =>
    match files.stat (page.viewPath clean) with
    | .error error => .answer (.error (.file (page.viewPath clean) error))
    | .ok view =>
      if isCurrent files (page.cachePath clean) view then .answer (.ok (page.cachePath clean))
      else page.verdictOn clean view

/-- The answer, and the files after what a verdict asks for. -/
def carryOut (page : Page) (files : FileSystem) :
    Verdict → Except PageError String × FileSystem
  | .answer result => (result, files)
  | .document clean text time => page.keep files clean text time

theorem recompile_eq (page : Page) (files : FileSystem) (clean : String) (view : Entry) :
    ((page.recompile files clean view).result, (page.recompile files clean view).files) =
      page.carryOut files (page.verdictOn clean view) := by
  unfold recompile verdictOn
  cases view with
  | directory time? contents => rfl
  | file bytes time =>
    dsimp only
    cases (compileEntry (page.viewPath clean) (.file bytes time)).result <;> rfl

/-- Compiling a view is carrying out the verdict on it. -/
theorem compile_eq (page : Page) (files : FileSystem) (name : String) :
    ((page.compile files name).result, (page.compile files name).files) =
      page.carryOut files (page.verdict files name) := by
  unfold compile verdict
  cases ViewName.sanitize? name with
  | none => rfl
  | some clean =>
    dsimp only
    cases files.stat (page.viewPath clean) with
    | error error => rfl
    | ok view =>
      dsimp only
      split
      · rfl
      · exact recompile_eq page files clean view

theorem result_compile (page : Page) (files : FileSystem) (name : String) :
    (page.compile files name).result = (page.carryOut files (page.verdict files name)).1 :=
  congrArg Prod.fst (compile_eq page files name)

theorem files_compile (page : Page) (files : FileSystem) (name : String) :
    (page.compile files name).files = (page.carryOut files (page.verdict files name)).2 :=
  congrArg Prod.snd (compile_eq page files name)

/-- A document to keep is what the view composes to, at its time. -/
theorem exists_of_verdict (h : page.verdict files name = .document clean text time) :
    ViewName.sanitize? name = some clean ∧ ∃ bytes,
      files.stat (page.viewPath clean) = .ok (.file bytes time) ∧ Composes bytes text := by
  unfold verdict at h
  split at h
  · cases h
  · rename_i clean' hclean
    split at h
    · cases h
    · rename_i view hstat
      split at h
      · cases h
      · cases view with
        | directory time? contents => cases h
        | file bytes time' =>
          unfold verdictOn at h
          dsimp only at h
          split at h
          · cases h
          · rename_i fragments hresult
            cases h
            exact ⟨hclean, bytes, hstat, fragments, hresult, rfl⟩

/-- A view that is not found is not shown. -/
theorem verdict_of_error (hclean : ViewName.sanitize? name = some clean) {error : FileError}
    (hstat : files.stat (page.viewPath clean) = .error error) :
    page.verdict files name = .answer (.error (.file (page.viewPath clean) error)) := by
  simp only [verdict, hclean, hstat]

/-- A view that is found has a current document, or needs one. -/
theorem verdict_of_ok {view : Entry} (hclean : ViewName.sanitize? name = some clean)
    (hstat : files.stat (page.viewPath clean) = .ok view) :
    page.verdict files name =
      if isCurrent files (page.cachePath clean) view then .answer (.ok (page.cachePath clean))
      else page.verdictOn clean view := by
  simp only [verdict, hclean, hstat]

/-- A verdict without a current document is an error or a document to keep. -/
theorem verdictOn_ne_ok (page : Page) (clean : String) (view : Entry) (path : String) :
    page.verdictOn clean view ≠ .answer (.ok path) := by
  cases view with
  | directory time? contents => simp [verdictOn]
  | file bytes time =>
    rw [verdictOn]
    cases (compileEntry (page.viewPath clean) (.file bytes time)).result <;> simp

/-- The answer is a path only where the document at that path is current. -/
theorem exists_of_verdict_ok (h : page.verdict files name = .answer (.ok path)) :
    ∃ clean view, ViewName.sanitize? name = some clean ∧ path = page.cachePath clean ∧
      files.stat (page.viewPath clean) = .ok view ∧ isCurrent files path view = true := by
  unfold verdict at h
  split at h
  · cases h
  · rename_i clean hclean
    split at h
    · cases h
    · rename_i view hstat
      split at h
      · rename_i hcurrent
        cases h
        exact ⟨clean, view, hclean, rfl, hstat, hcurrent⟩
      · exact absurd h (page.verdictOn_ne_ok clean view path)

/-! ## What is shown -/

/-- What is shown where compiling a view came to this answer and left these files. -/
def shown (page : Page) (outcome : Except PageError String × FileSystem) :
    Except PageError String :=
  match outcome.1 with
  | .error error => .error error
  | .ok path =>
    match readDocument outcome.2 path with
    | .error error => .error error
    | .ok document => (render document page.bindings page.statics).text.mapError .render

/-- Showing a view is carrying out the verdict on it, and showing what comes of that. -/
theorem result_view (page : Page) (files : FileSystem) (name : String) :
    (page.view files name).result =
      page.shown (page.carryOut files (page.verdict files name)) := by
  rw [← compile_eq, view, shown]
  dsimp only
  cases (page.compile files name).result with
  | error error => rfl
  | ok path =>
    dsimp only
    cases readDocument (page.compile files name).files path <;> rfl

/-! ## What the verdict sees -/

/-- A kept document at a plain path is current if it has the time of the view, where that is
known. -/
theorem isCurrent_iff (hpath : PlainPath path) {view : Entry} :
    isCurrent files path view = true ↔
      Fits (names path) ∧ ∃ time, view.time? = some time ∧
        files.changed? (names path) = some time := by
  unfold isCurrent
  cases hstat : files.stat path with
  | error error =>
    have haccess := stat_access files hpath
    rw [hstat] at haccess
    constructor
    · rintro ⟨⟩
    · rintro ⟨hfits, time, _, hchanged⟩
      obtain ⟨kind, hkind⟩ := look?_of_changed? hchanged
      have hok : files.access (names path) = .ok () :=
        access_eq_ok_iff.mpr ⟨hfits, by simp [hkind]⟩
      rw [hok] at haccess
      cases haccess
  | ok cached =>
    obtain ⟨hlook, hchanged⟩ := status_of_stat hpath hstat
    have hfits : Fits (names path) := by
      have haccess := stat_access files hpath
      rw [hstat] at haccess
      exact (access_eq_ok_iff.mp haccess.symm).1
    rw [hchanged]
    cases view.time? with
    | none => simp
    | some time => simp [hfits]

/-- When nothing current is kept, only the kind of a view matters. -/
theorem verdictOn_congr {view view' : Entry} (h : view'.kind = view.kind) :
    page.verdictOn clean view' = page.verdictOn clean view := by
  cases view with
  | file bytes time => rw [Entry.eq_file_of_kind h]
  | directory time? contents =>
    obtain ⟨time'?, contents', rfl⟩ := Entry.eq_directory_of_kind h
    rfl

/-- Where a view is found alike and its kept document was changed at the same time, the verdict is
the same. -/
theorem verdict_congr (hclean : ViewName.sanitize? name = some clean)
    (hcache : PlainPath (page.cachePath clean))
    (hview : (files'.stat (page.viewPath clean)).map Entry.status =
      (files.stat (page.viewPath clean)).map Entry.status)
    (hdocument : files'.changed? (names (page.cachePath clean)) =
      files.changed? (names (page.cachePath clean))) :
    page.verdict files' name = page.verdict files name := by
  unfold verdict
  rw [hclean]
  dsimp only
  cases hstat : files.stat (page.viewPath clean) with
  | error error =>
    cases hstat' : files'.stat (page.viewPath clean) with
    | error error' =>
      rw [hstat, hstat'] at hview
      cases hview
      rfl
    | ok view' =>
      rw [hstat, hstat'] at hview
      cases hview
  | ok view =>
    cases hstat' : files'.stat (page.viewPath clean) with
    | error error' =>
      rw [hstat, hstat'] at hview
      cases hview
    | ok view' =>
      rw [hstat, hstat'] at hview
      have hstatus : view'.status = view.status := Except.ok.inj hview
      obtain ⟨hkind, htime⟩ := Prod.mk.inj hstatus
      have hcurrent : isCurrent files' (page.cachePath clean) view' =
          isCurrent files (page.cachePath clean) view := by
        rw [Bool.eq_iff_iff, isCurrent_iff hcache, isCurrent_iff hcache, hdocument, htime]
      dsimp only
      rw [hcurrent, verdictOn_congr hkind]

end Page

end TabMarkup
