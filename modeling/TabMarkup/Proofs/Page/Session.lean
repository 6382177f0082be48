import TabMarkup.Proofs.Page.Outcome

/-!
# A page at work

Between the calls of a page, its views are written, touched and removed, and names are bound. A
run is any sequence of these. One step changes the views, or what is kept of them, but never both;
and what it keeps of a view comes from that view.
-/

namespace TabMarkup

open FileSystem

/-- What can happen to a page and to the files that stand directly in the directory of its
views. -/
inductive Act where
  | write (name : FileName) (bytes : List UInt8) (time : Time)
  | touch (name : FileName) (time : Time)
  | remove (name : FileName)
  | bind (name : String) (binding : Binding)
  | compile (name : String)
  | view (name : String)
  | output

/-- A page with its files. -/
structure Session where
  page : Page
  files : FileSystem

namespace Session

/-- The session with the files after an operation. What is refused leaves them as they are. -/
def attempt (s : Session) : Except FileError FileSystem → Session
  | .ok files => { s with files }
  | .error _ => s

/-- The session after an act. -/
def step (s : Session) : Act → Session
  | .write name bytes time => s.attempt (s.files.place (s.page.viewPath name.text) bytes time)
  | .touch name time => s.attempt (s.files.touch (s.page.viewPath name.text) time)
  | .remove name => s.attempt (s.files.remove (s.page.viewPath name.text))
  | .bind name binding => { s with page := s.page.bind name binding }
  | .compile name => { s with files := (s.page.compile s.files name).files }
  | .view name => { s with files := (s.page.view s.files name).files }
  | .output => { s with files := (s.page.output s.files).files }

/-- The session of a page after some acts, from an empty file system. -/
def run (page : Page) (acts : List Act) : Session :=
  acts.foldl step ⟨page, .empty⟩

theorem run_concat (page : Page) (acts : List Act) (act : Act) :
    run page (acts ++ [act]) = (run page acts).step act := by
  rw [run, List.foldl_append]
  rfl

/-- The directories of a page stay what they are. -/
theorem config_step (s : Session) (act : Act) : (s.step act).page.config = s.page.config := by
  have hattempt : ∀ result, (s.attempt result).page.config = s.page.config := by
    intro result
    cases result <;> rfl
  cases act with
  | write name bytes time => exact hattempt _
  | touch name time => exact hattempt _
  | remove name => exact hattempt _
  | bind name binding => rfl
  | compile name => rfl
  | view name => rfl
  | output => rfl

theorem config_run (page : Page) (acts : List Act) :
    (run page acts).page.config = page.config := by
  induction acts using List.reverseRecOn with
  | nil => rfl
  | append_singleton acts act ih => rw [run_concat, config_step, ih]

end Session

/-! ## What changes views -/

namespace Page

variable {page : Page} {files files' : FileSystem} {name : FileName}

/-- What is seen of a view after an act was seen before, or is a file that was written or touched
by it; and no kept document is changed. -/
structure ViewsChanged (page : Page) (act : Act) (files files' : FileSystem) : Prop where
  views : ∀ name kind, files'.look? (page.viewPlace name) = some kind →
    files.look? (page.viewPlace name) = some kind ∨
      ∃ view : FileName, view.text = name ∧ ∃ bytes time, kind = .file bytes time ∧
        (act = .write view bytes time ∨ act = .touch view time)
  documents : ∀ clean, files'.look? (page.cachePlace clean) = files.look? (page.cachePlace clean)

theorem ViewsChanged.refl (page : Page) (act : Act) (files : FileSystem) :
    page.ViewsChanged act files files where
  views := fun _ _ hkind => Or.inl hkind
  documents := fun _ => rfl

theorem viewPlace_inj {clean other : String} :
    page.viewPlace clean = page.viewPlace other ↔ clean = other := by
  simp [viewPlace]

/-- A path to a view leads to the place of the view. -/
theorem address_of_locate_view (h : page.DirectoriesApart) {trail : Trail}
    (hlocate : files.locate (page.viewPath name.text) = .ok trail) :
    address trail = page.viewPlace name.text := by
  rw [address_of_locate (h.plainPath_viewPath name) hlocate, h.names_viewPath]

theorem viewsChanged_of_place (h : page.DirectoriesApart) {bytes : List UInt8} {time : Time}
    (hok : files.place (page.viewPath name.text) bytes time = .ok files') :
    page.ViewsChanged (.write name bytes time) files files' := by
  obtain ⟨made, hmade, hwrite⟩ := place_ok (h.plainPath_viewPath name) hok
  rw [h.names_viewPath, viewPlace, List.dropLast_concat] at hmade
  obtain ⟨trail, hlocate, _, hfile, honly⟩ := write_ok hwrite
  rw [address_of_locate_view h hlocate] at hfile honly
  constructor
  · intro other kind hkind
    by_cases heq : other = name.text
    · subst heq
      rw [hfile] at hkind
      cases hkind
      exact Or.inr ⟨name, rfl, bytes, time, rfl, Or.inl rfl⟩
    · rw [honly _ (viewPlace_inj.not.mpr heq),
        hmade.look?_eq (page.viewPlace_not_prefix_viewDir other)] at hkind
      exact Or.inl hkind
  · intro clean
    rw [honly _ (h.viewPlace_ne_cachePlace name.text clean).symm,
      hmade.look?_eq (h.cachePlace_not_prefix_viewDir clean)]

theorem viewsChanged_of_touch (h : page.DirectoriesApart) {time : Time}
    (hok : files.touch (page.viewPath name.text) time = .ok files') :
    page.ViewsChanged (.touch name time) files files' := by
  obtain ⟨trail, entry, hlocate, hbefore, hafter, honly⟩ := touch_ok hok
  rw [address_of_locate_view h hlocate] at hbefore hafter honly
  constructor
  · intro other kind hkind
    by_cases heq : other = name.text
    · subst heq
      rw [hafter] at hkind
      cases entry with
      | file bytes time' =>
        cases hkind
        exact Or.inr ⟨name, rfl, bytes, time, rfl, Or.inr rfl⟩
      | directory time? contents =>
        cases hkind
        exact Or.inl hbefore
    · rw [honly _ (viewPlace_inj.not.mpr heq)] at hkind
      exact Or.inl hkind
  · intro clean
    exact honly _ (h.viewPlace_ne_cachePlace name.text clean).symm

theorem viewsChanged_of_remove (h : page.DirectoriesApart)
    (hok : files.remove (page.viewPath name.text) = .ok files') :
    page.ViewsChanged (.remove name) files files' := by
  obtain ⟨trail, hlocate, _, hgone, hother⟩ := remove_ok hok
  have haddress := address_of_locate_view h hlocate
  have hne : trail ≠ [] := by
    rintro rfl
    simp [address, viewPlace] at haddress
  have hgone := hgone hne
  rw [haddress] at hgone hother
  constructor
  · intro other kind hkind
    by_cases hpre : page.viewPlace name.text <+: page.viewPlace other
    · obtain ⟨rest, hrest⟩ := hpre
      rw [← hrest, hgone rest] at hkind
      cases hkind
    · rw [hother _ hpre] at hkind
      exact Or.inl hkind
  · intro clean
    exact hother _ (h.viewPlace_not_prefix_cachePlace name.text clean)

end Page

namespace Session

/-- A step changes views, or what is kept of them. -/
theorem step_changed {page : Page} (h : page.DirectoriesApart) {s : Session}
    (hconfig : s.page.config = page.config) (act : Act) :
    page.ViewsChanged act s.files (s.step act).files ∨
      page.CacheChanged s.files (s.step act).files := by
  have hpath : s.page.viewPath = page.viewPath := Page.viewPath_congr hconfig
  have hcompile : s.page.compile = page.compile := Page.compile_congr hconfig
  have hattempt : ∀ result, (∀ files, result = .ok files → page.ViewsChanged act s.files files) →
      page.ViewsChanged act s.files (s.attempt result).files := by
    intro result hresult
    cases result with
    | ok files => exact hresult files rfl
    | error error => exact .refl page act s.files
  have hcall : ∀ name, page.CacheChanged s.files (page.compile s.files name).files :=
    fun name => (Page.outcome_compile h.plainCache s.files name).cacheChanged h
  cases act with
  | write name bytes time =>
    rw [step, hpath]
    exact Or.inl (hattempt _ fun _ => Page.viewsChanged_of_place h)
  | touch name time =>
    rw [step, hpath]
    exact Or.inl (hattempt _ fun _ => Page.viewsChanged_of_touch h)
  | remove name =>
    rw [step, hpath]
    exact Or.inl (hattempt _ fun _ => Page.viewsChanged_of_remove h)
  | bind name binding => exact Or.inl (.refl page _ s.files)
  | compile name =>
    rw [step, hcompile]
    exact Or.inr (hcall name)
  | view name =>
    rw [step, Page.files_view, hcompile]
    exact Or.inr (hcall name)
  | output =>
    rw [step, Page.output, Page.files_view, hcompile]
    exact Or.inr (hcall s.page.viewName)

/-- What is changed by the last act of a run. -/
theorem run_concat_changed {page : Page} (h : page.DirectoriesApart) (acts : List Act)
    (act : Act) :
    page.ViewsChanged act (run page acts).files (run page (acts ++ [act])).files ∨
      page.CacheChanged (run page acts).files (run page (acts ++ [act])).files := by
  rw [run_concat]
  exact step_changed h (config_run page acts) act

end Session

end TabMarkup
