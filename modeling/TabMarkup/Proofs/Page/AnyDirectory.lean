import TabMarkup.Proofs.FileSystem.MakeAgain
import TabMarkup.Proofs.Page.Places

/-!
# Directories with any names

The path of a directory can have empty names, `.` and `..` in it. A file in the directory stands at
the address to which the path leads, and keeping a document changes nothing but its place there and
directories that the path passes through.
-/

namespace TabMarkup

open FileSystem

namespace Page

variable {page : Page} {files files' made : FileSystem} {name clean text : String} {time : Time}

/-! ## Where the files of a page stand -/

/-- The address to which the directory of the kept documents leads. -/
def cacheAddress (page : Page) : List String :=
  destination [] (names page.config.cacheDir)

/-- The address of a view, whatever names the path of its directory has. -/
def viewAddress (page : Page) (clean : String) : List String :=
  destination [] (names page.config.viewDir) ++ [clean]

/-- The address of the kept document of a view, whatever names the path of its directory has. -/
def documentAddress (page : Page) (clean : String) : List String :=
  page.cacheAddress ++ [clean ++ ".html"]

/-- Whether a view is found, and why not, is seen on the way to its address. -/
theorem stat_viewPath (hviews : NeverUp page.config.viewDir)
    (hclean : ViewName.sanitize? name = some clean) :
    (files.stat (page.viewPath clean)).map (fun _ => ()) =
      if pathLimit < pathSize (names (page.viewPath clean)) then .error .nameTooLong
      else files.reach [] (page.viewAddress clean) := by
  obtain ⟨before, hnames, hbefore⟩ :=
    exists_names_join page.config.viewDir (ViewName.fileName hclean)
  have hup : ".." ∉ before := by
    rw [← up_mem_steps, hbefore, up_mem_steps]
    exact hviews
  rw [viewAddress, destination_of_neverUp hviews, ← hbefore]
  exact stat_of_neverUp files hnames (ViewName.fileName hclean).plain hup

theorem cacheAddress_of_plain (h : PlainPath page.config.cacheDir) :
    page.cacheAddress = names page.config.cacheDir := by
  rw [cacheAddress, destination_of_plain h, List.nil_append]

theorem documentAddress_of_plain (h : PlainPath page.config.cacheDir) (clean : String) :
    page.documentAddress clean = page.cachePlace clean := by
  rw [documentAddress, cachePlace, cacheAddress_of_plain h]

theorem address_cachePath (hclean : ViewName.sanitize? name = some clean) {trail : Trail}
    (h : files.locate (page.cachePath clean) = .ok trail) :
    address trail = page.documentAddress clean := by
  rw [address_of_walk (locate_eq_ok.mp h).2.2, address]
  exact destination_join page.config.cacheDir (ViewName.documentName hclean)

/-- A document that is found stands at its address. -/
theorem look?_of_stat_cachePath (hclean : ViewName.sanitize? name = some clean) {entry : Entry}
    (h : files.stat (page.cachePath clean) = .ok entry) :
    files.look? (page.documentAddress clean) = some entry.kind := by
  obtain ⟨trail, hlocate, hentry⟩ := stat_eq_ok.mp h
  rw [← address_cachePath hclean hlocate, look?_address (hasTrail_of_locate hlocate), hentry]
  rfl

theorem documentAddress_not_prefix_cacheAddress (page : Page) (clean : String) :
    ¬ page.documentAddress clean <+: page.cacheAddress := by
  intro hpre
  have hlength := hpre.length_le
  rw [documentAddress, List.length_append, List.length_singleton] at hlength
  omega

/-! ## What is changed -/

/-- Keeping a document makes its directory, and then writes it there; either can be refused. -/
theorem keep_result (page : Page) (files : FileSystem) (clean text : String) (time : Time) :
    (∃ path error, (path = page.config.cacheDir ∨ path = page.cachePath clean) ∧
        page.keep files clean text time =
          (.error (.file path error), (files.makeDirectories (names page.config.cacheDir)).2)) ∨
      ∃ written, (files.makeDirectories (names page.config.cacheDir)).2.write
          (page.cachePath clean) (Utf8.encode text.toList) time = .ok written ∧
        page.keep files clean text time = (.ok (page.cachePath clean), written) := by
  unfold keep
  split
  · rename_i error made heq
    rw [heq]
    exact Or.inl ⟨_, error, Or.inl rfl, rfl⟩
  · rename_i made heq
    rw [heq]
    dsimp only
    split
    · rename_i error hwrite
      exact Or.inl ⟨_, error, Or.inr rfl, rfl⟩
    · rename_i written hwrite
      exact Or.inr ⟨written, hwrite, rfl⟩

/-- Nothing looks different but the kept document of one view, which is a file where no directory
was, and places that the path of its directory passes through, where nothing was: there stand
directories now. -/
def OnlyKeepsAt (page : Page) (clean : String) (files files' : FileSystem) : Prop :=
  ∀ address, files'.look? address = files.look? address ∨
    (address = page.documentAddress clean ∧ files.look? address ≠ some .directory ∧
      ∃ bytes time, files'.look? address = some (.file bytes time)) ∨
    files.look? address = none ∧ files'.look? address = some .directory ∧
      PassesThrough (names page.config.cacheDir) address

/-- All directories are kept. -/
theorem OnlyKeepsAt.directory (h : page.OnlyKeepsAt clean files files') {address : List String}
    (hdirectory : files.look? address = some .directory) :
    files'.look? address = some .directory := by
  rcases h address with hsame | ⟨_, hnot, _⟩ | ⟨_, hdirectory', _⟩
  · rw [hsame, hdirectory]
  · exact absurd hdirectory hnot
  · exact hdirectory'

/-- Keeping a document changes nothing but it and directories on the way, whether or not it
succeeds. -/
theorem onlyKeepsAt_keep (hclean : ViewName.sanitize? name = some clean) (files : FileSystem)
    (text : String) (time : Time) :
    page.OnlyKeepsAt clean files (page.keep files clean text time).2 := by
  have hmade : page.OnlyKeepsAt clean files
      (files.makeDirectories (names page.config.cacheDir)).2 := fun address =>
    (onlyAddsAt_makeDirectories files (names page.config.cacheDir) address).imp_right Or.inr
  rcases keep_result page files clean text time with ⟨_, _, _, hkeep⟩ | ⟨written, hwrite, hkeep⟩
  · rw [hkeep]
    exact hmade
  · rw [hkeep]
    obtain ⟨trail, hlocate, hnot, hfile, honly⟩ := write_ok hwrite
    rw [address_cachePath hclean hlocate] at hnot hfile honly
    intro other
    by_cases hother : other = page.documentAddress clean
    · subst hother
      exact Or.inr (Or.inl ⟨rfl, fun hdirectory => hnot (hmade.directory hdirectory), _, _, hfile⟩)
    · rw [honly other hother]
      exact hmade other

/-! ## Keeping again -/

/-- Where the directory is there, keeping a document is writing it. -/
theorem keep_of_write (hmade : files.makeDirectories (names page.config.cacheDir) = (.ok (), files))
    (hwrite : files.write (page.cachePath clean) (Utf8.encode text.toList) time = .ok files') :
    page.keep files clean text time = (.ok (page.cachePath clean), files') := by
  simp only [keep, hmade, hwrite]

theorem keep_of_refused
    (hmade : files.makeDirectories (names page.config.cacheDir) = (.ok (), files))
    {error : FileError}
    (hwrite : files.write (page.cachePath clean) (Utf8.encode text.toList) time = .error error) :
    page.keep files clean text time = (.error (.file (page.cachePath clean) error), files) := by
  simp only [keep, hmade, hwrite]

/-- The directories may as well be made before a document is kept. -/
theorem keep_made (hcache : NeverUp page.config.cacheDir) (files : FileSystem)
    (clean text : String) (time : Time) :
    page.keep (files.makeDirectories (names page.config.cacheDir)).2 clean text time =
      page.keep files clean text time := by
  unfold keep
  rw [makeDirectories_again files hcache]

/-- Where the directory cannot be made, keeping any document fails in the same way, then and after
what could be made of it; otherwise it may as well be there before. -/
theorem keep_cases (hcache : NeverUp page.config.cacheDir) (files : FileSystem) :
    (∃ error made, ∀ clean text time,
        page.keep files clean text time = (.error (.file page.config.cacheDir error), made) ∧
          page.keep made clean text time = (.error (.file page.config.cacheDir error), made)) ∨
      ∃ made, made.makeDirectories (names page.config.cacheDir) = (.ok (), made) ∧
        ∀ clean text time, page.keep files clean text time = page.keep made clean text time := by
  have hmade := keep_made hcache files
  have hagain := makeDirectories_again files hcache
  cases hresult : files.makeDirectories (names page.config.cacheDir) with
  | mk result made =>
    rw [hresult] at hmade hagain
    cases result with
    | error error =>
      have hfails (clean text : String) (time : Time) : page.keep files clean text time =
          (.error (.file page.config.cacheDir error), made) := by
        rw [keep, hresult]
      exact Or.inl ⟨error, made, fun clean text time =>
        ⟨hfails clean text time, (hmade clean text time).trans (hfails clean text time)⟩⟩
    | ok =>
      exact Or.inr ⟨made, hagain, fun clean text time => (hmade clean text time).symm⟩

/-- Whether a document can be kept does not depend on one that was kept at the same place. -/
theorem keep_after_same (hcache : NeverUp page.config.cacheDir)
    (hclean : ViewName.sanitize? name = some clean) (files : FileSystem) (text text' : String)
    (time time' : Time) :
    (page.keep (page.keep files clean text time).2 clean text' time').1 =
      (page.keep files clean text' time').1 := by
  rcases keep_cases hcache files with ⟨error, made, hfails⟩ | ⟨made, hmade, hsame⟩
  · rw [(hfails clean text time).1, (hfails clean text' time').1, (hfails clean text' time').2]
  rw [hsame clean text time, hsame clean text' time']
  cases hwrite : made.write (page.cachePath clean) (Utf8.encode text.toList) time with
  | error error => rw [keep_of_refused hmade hwrite]
  | ok files' =>
    have hkeep := keep_of_write hmade hwrite
    have hkeeps : page.OnlyKeepsAt clean made _ := onlyKeepsAt_keep hclean made text time
    rw [hkeep] at hkeeps
    obtain ⟨written, hwritten⟩ := exists_write_of_write hwrite (Utf8.encode text'.toList) time'
    obtain ⟨again, hagain⟩ :=
      exists_write_of_file (stat_of_write hwrite) (Utf8.encode text'.toList) time'
    rw [hkeep, keep_of_write (makeDirectories_of_made (fun _ => hkeeps.directory) hmade) hagain,
      keep_of_write hmade hwritten]

end Page

end TabMarkup
