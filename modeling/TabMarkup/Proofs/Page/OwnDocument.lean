import TabMarkup.Proofs.Page.Keeping

/-!
# Views do not meet

Compiling a view changes its own kept document and directories on the way to it, and nothing else.
So two views with different names can be compiled in either order, with the same answers and the
same files in the end.
-/

namespace TabMarkup

open FileSystem

/-! ## Cleaned names -/

namespace ViewName

/-- A cleaned name stays as it is when it is cleaned again. -/
theorem sanitize?_of_sanitize? {name clean : String} (h : sanitize? name = some clean) :
    sanitize? clean = some clean := by
  obtain ⟨hkeeps, c, hc, hdot⟩ := sanitize?_eq_some h
  have hfilter : clean.toList.filter keeps = clean.toList := List.filter_eq_self.mpr hkeeps
  have hdots : ¬ clean.toList.all (· == '.') = true := by
    intro hall
    exact hdot (by simpa using List.all_eq_true.mp hall c hc)
  unfold sanitize?
  dsimp only
  rw [hfilter, if_neg hdots, String.ofList_toList]

end ViewName

namespace Page

variable {page : Page} {files files' : FileSystem} {name other clean text text' : String}
  {time time' : Time}

/-! ## What one view changes -/

/-- A name that is not one leaves everything as it is. -/
theorem files_compile_of_refused (hclean : ViewName.sanitize? name = none) :
    (page.compile files name).files = files := by
  rw [compile, hclean]

/-- Compiling a view changes nothing but its kept document and directories on the way to it. -/
theorem onlyKeeps_compile (hcache : PlainPath page.config.cacheDir) (files : FileSystem)
    (hclean : ViewName.sanitize? name = some clean) :
    page.OnlyKeeps clean files (page.compile files name).files := by
  rw [files_compile]
  cases hverdict : page.verdict files name with
  | answer result => exact OnlyKeeps.refl page clean files
  | document clean' text time =>
    obtain ⟨hclean', _⟩ := exists_of_verdict hverdict
    rw [hclean] at hclean'
    cases hclean'
    exact onlyKeeps_keep hcache hclean files text time

/-! ## What it leaves to another -/

theorem cachePlace_on_way_iff {other : String} :
    page.cachePlace other <+: page.cachePlace clean ↔ other = clean := by
  constructor
  · intro hpre
    have hlength : (page.cachePlace other).length = (page.cachePlace clean).length := by
      simp [cachePlace]
    exact cachePlace_inj.mp (hpre.eq_of_length hlength)
  · rintro rfl
    exact List.prefix_refl _

/-- The verdict on another view is not changed by the document of a view that is there. -/
theorem verdict_of_onlyKeeps (h : page.DirectoriesApart)
    (hkeeps : page.OnlyKeeps clean files files') {kind : Kind}
    (hview : files.look? (page.viewPlace clean) = some kind) {other' : String}
    (hother : ViewName.sanitize? other = some other') (hne : other' ≠ clean) :
    page.verdict files' other = page.verdict files other := by
  have hplace := h.names_viewPath (ViewName.fileName hother)
  change names (page.viewPath other') = page.viewPlace other' at hplace
  have hpath : PlainPath (page.viewPath other') := h.plainPath_viewPath (ViewName.fileName hother)
  have hnotView := h.viewPlace_not_prefix_cachePlace other' clean
  have hnotDocument : ¬ page.cachePlace other' <+: page.cachePlace clean :=
    fun hpre => hne (cachePlace_on_way_iff.mp hpre)
  refine verdict_congr hother (h.plainPath_cachePath hother) (stat_congr hpath ?_ ?_ ?_) ?_
  · rw [hplace]
    refine access_eq_of_added (fun before name after heq => Or.inl ?_) (hkeeps.look?_eq hnotView)
    -- The directory of the views is there, and no directory is lost.
    have hdirectory := look?_of_on_way hview (on_way_of_split heq)
    rw [hkeeps.directory hdirectory, hdirectory]
  · rw [hplace]
    exact hkeeps.look?_eq hnotView
  · rw [hplace]
    exact hkeeps.times _ hnotView
  · rw [h.names_cachePath hother]
    exact hkeeps.times _ hnotDocument

/-- The verdict on a view does not depend on whether another one was compiled before. -/
theorem verdict_after (h : page.DirectoriesApart) (files : FileSystem)
    (hnames : ∀ clean, ViewName.sanitize? name = some clean →
      ViewName.sanitize? other ≠ some clean) :
    page.verdict (page.compile files name).files other = page.verdict files other := by
  rw [files_compile]
  cases hverdict : page.verdict files name with
  | answer result => rfl
  | document clean text time =>
    obtain ⟨hclean, bytes, hstat, _⟩ := exists_of_verdict hverdict
    have hview := look?_of_stat (h.plainPath_viewPath (ViewName.fileName hclean)) hstat
    rw [h.names_viewPath (ViewName.fileName hclean)] at hview
    cases hother : ViewName.sanitize? other with
    | none => rw [verdict, verdict, hother]
    | some other' =>
      have hne : other' ≠ clean := by
        rintro rfl
        exact hnames other' hclean hother
      exact verdict_of_onlyKeeps h (onlyKeeps_keep h.plainCache hclean files text time) hview
        hother hne

/-- Whether one document can be kept does not depend on another one. -/
theorem writeRefusal?_of_onlyAt (hne : other ≠ clean)
    (honly : OnlyAt (page.cachePlace clean) files files') :
    files'.writeRefusal? (page.cachePlace other) = files.writeRefusal? (page.cachePlace other) := by
  have hplace : page.cachePlace other ≠ page.cachePlace clean :=
    fun heq => hne (cachePlace_inj.mp heq)
  have haccess : files'.access (page.cachePlace other) = files.access (page.cachePlace other) := by
    refine access_eq_of_added (fun before name after heq => Or.inl ?_) (honly _ hplace)
    refine honly before ?_
    rintro rfl
    exact page.cachePlace_not_prefix_cacheDir clean (on_way_of_split heq)
  rw [writeRefusal?, writeRefusal?, haccess, honly _ hplace]

/-- Keeping a document where its directory is there changes nothing but it. -/
theorem onlyAt_keep (h : page.HasCache files) (hcache : PlainPath page.config.cacheDir)
    (hclean : ViewName.sanitize? name = some clean) (text : String) (time : Time) :
    OnlyAt (page.cachePlace clean) files (page.keep files clean text time).2 := by
  rcases keep_in_cache h hcache hclean text time with ⟨error, _, hkeep⟩ |
    ⟨_, files', hkeep, _, honly⟩
  · rw [hkeep]
    exact fun _ _ => rfl
  · rw [hkeep]
    exact honly

/-- Where two file systems have the directory and look alike at the place of a document, it is kept
in both or in neither. -/
theorem keep_alike (h : page.HasCache files) (h' : page.HasCache files')
    (hcache : PlainPath page.config.cacheDir) (hclean : ViewName.sanitize? name = some clean)
    (hrefusal : files'.writeRefusal? (page.cachePlace clean) =
      files.writeRefusal? (page.cachePlace clean))
    (hlook : files'.look? (page.cachePlace clean) = files.look? (page.cachePlace clean))
    (text : String) (time : Time) :
    (page.keep files' clean text time).1 = (page.keep files clean text time).1 ∧
      (page.keep files' clean text time).2.look? (page.cachePlace clean) =
        (page.keep files clean text time).2.look? (page.cachePlace clean) := by
  rcases keep_in_cache h hcache hclean text time with ⟨error, hrefused, hkeep⟩ |
    ⟨hrefused, made, hkeep, hfile, _⟩
  · rcases keep_in_cache h' hcache hclean text time with ⟨error', hrefused', hkeep'⟩ |
      ⟨hrefused', _⟩
    · rw [hrefusal, hrefused] at hrefused'
      cases hrefused'
      rw [hkeep, hkeep']
      exact ⟨rfl, hlook⟩
    · rw [hrefusal, hrefused] at hrefused'
      cases hrefused'
  · rcases keep_in_cache h' hcache hclean text time with ⟨error', hrefused', _⟩ |
      ⟨_, made', hkeep', hfile', _⟩
    · rw [hrefusal, hrefused] at hrefused'
      cases hrefused'
    · rw [hkeep, hkeep']
      exact ⟨rfl, hfile'.trans hfile.symm⟩

/-- Where the directory is there, keeping a document after another one has the same answer, and
leaves the same at its place. -/
theorem keep_after_keep (h : page.HasCache files) (hcache : PlainPath page.config.cacheDir)
    {first second : String} (hfirst : ViewName.sanitize? name = some first)
    (hsecond : ViewName.sanitize? other = some second) (hne : second ≠ first)
    (text text' : String) (time time' : Time) :
    (page.keep (page.keep files first text time).2 second text' time').1 =
        (page.keep files second text' time').1 ∧
      (page.keep (page.keep files first text time).2 second text' time').2.look?
          (page.cachePlace second) =
        (page.keep files second text' time').2.look? (page.cachePlace second) ∧
      OnlyAt (page.cachePlace second) (page.keep files first text time).2
        (page.keep (page.keep files first text time).2 second text' time').2 := by
  have honly := onlyAt_keep h hcache hfirst text time
  have hkept := h.of_onlyKeeps (onlyKeeps_keep hcache hfirst files text time)
  have hplace : page.cachePlace second ≠ page.cachePlace first :=
    fun heq => hne (cachePlace_inj.mp heq)
  obtain ⟨hresult, hlook⟩ := keep_alike h hkept hcache hsecond
    (writeRefusal?_of_onlyAt hne honly) (honly _ hplace) text' time'
  exact ⟨hresult, hlook, onlyAt_keep hkept hcache hsecond text' time'⟩

/-- Two documents are kept in either order with the same answers, and the same files in the end. -/
theorem keep_comm (hcache : PlainPath page.config.cacheDir) (files : FileSystem)
    {first second : String} (hfirst : ViewName.sanitize? name = some first)
    (hsecond : ViewName.sanitize? other = some second) (hne : second ≠ first)
    (text text' : String) (time time' : Time) :
    (page.keep (page.keep files first text time).2 second text' time').1 =
        (page.keep files second text' time').1 ∧
      (page.keep (page.keep files second text' time').2 first text time).1 =
        (page.keep files first text time).1 ∧
      ∀ address,
        (page.keep (page.keep files first text time).2 second text' time').2.look? address =
          (page.keep (page.keep files second text' time').2 first text time).2.look? address := by
  rcases keep_cases hcache.neverUp files with ⟨error, made, hfails⟩ | ⟨made, hmade, hsame⟩
  · rw [(hfails first text time).1, (hfails second text' time').1, (hfails first text time).2,
      (hfails second text' time').2]
    exact ⟨rfl, rfl, fun _ => rfl⟩
  · rw [← hasCache_iff_made hcache] at hmade
    rw [hsame first text time, hsame second text' time']
    obtain ⟨hresult, hlook, honly⟩ :=
      keep_after_keep hmade hcache hfirst hsecond hne text text' time time'
    obtain ⟨hresult', hlook', honly'⟩ :=
      keep_after_keep hmade hcache hsecond hfirst hne.symm text' text time' time
    have hplace : page.cachePlace second ≠ page.cachePlace first :=
      fun heq => hne (cachePlace_inj.mp heq)
    refine ⟨hresult, hresult', fun address => ?_⟩
    by_cases hhere : address = page.cachePlace second
    · rw [hhere, hlook, honly' _ hplace]
    by_cases hthere : address = page.cachePlace first
    · rw [hthere, honly _ hplace.symm, hlook']
    · rw [honly _ hhere, honly' _ hthere, onlyAt_keep hmade hcache hfirst text time _ hthere,
        onlyAt_keep hmade hcache hsecond text' time' _ hhere]

/-- Carrying out two verdicts on views with different names in either order has the same answers,
and leaves the same files. -/
theorem carryOut_comm (hcache : PlainPath page.config.cacheDir) (files : FileSystem)
    {first second : Verdict}
    (hfirst : ∀ clean text time, first = .document clean text time →
      ViewName.sanitize? name = some clean)
    (hsecond : ∀ clean text time, second = .document clean text time →
      ViewName.sanitize? other = some clean)
    (hnames : ∀ clean, ViewName.sanitize? name = some clean →
      ViewName.sanitize? other ≠ some clean) :
    (page.carryOut (page.carryOut files first).2 second).1 = (page.carryOut files second).1 ∧
      (page.carryOut (page.carryOut files second).2 first).1 = (page.carryOut files first).1 ∧
      ∀ address, (page.carryOut (page.carryOut files first).2 second).2.look? address =
        (page.carryOut (page.carryOut files second).2 first).2.look? address := by
  cases first with
  | answer result => exact ⟨rfl, rfl, fun _ => rfl⟩
  | document clean text time =>
    cases second with
    | answer result => exact ⟨rfl, rfl, fun _ => rfl⟩
    | document clean' text' time' =>
      have hclean := hfirst clean text time rfl
      have hclean' := hsecond clean' text' time' rfl
      have hne : clean' ≠ clean := by
        rintro rfl
        exact hnames clean' hclean hclean'
      exact keep_comm hcache files hclean hclean' hne text text' time time'

end Page

open Page

/-- Where the directories of a page are apart, a name that is refused changes nothing. Any other
name becomes one plain name, which stays itself; whatever compiling or showing its view answers,
nothing is changed but its kept document, where no directory was, and directories on the way to it.
And views whose names become different ones are compiled in either order with the same answers, and
the same files in the end. -/
theorem views_stay_apart {page : Page} (h : page.DirectoriesApart) (files : FileSystem) :
    (∀ name, ViewName.sanitize? name = none →
      (page.compile files name).files = files ∧ (page.view files name).files = files) ∧
    (∀ name clean, ViewName.sanitize? name = some clean →
      (∀ c ∈ clean.toList, c.isAlphanum = true ∨ c = '_' ∨ c = '.' ∨ c = '-') ∧
      (∃ c ∈ clean.toList, c ≠ '.') ∧ names clean = [clean] ∧ PlainName clean ∧
      ViewName.sanitize? clean = some clean ∧
      page.OnlyKeeps clean files (page.compile files name).files ∧
      page.OnlyKeeps clean files (page.view files name).files) ∧
    ∀ name other, (∀ clean, ViewName.sanitize? name = some clean →
        ViewName.sanitize? other ≠ some clean) →
      (page.compile (page.compile files name).files other).result =
          (page.compile files other).result ∧
        (page.compile (page.compile files other).files name).result =
          (page.compile files name).result ∧
        ∀ address, (page.compile (page.compile files name).files other).files.look? address =
          (page.compile (page.compile files other).files name).files.look? address := by
  refine ⟨fun name hclean => ?_, fun name clean hclean => ?_, fun name other hnames => ?_⟩
  · rw [files_view]
    exact ⟨files_compile_of_refused hclean, files_compile_of_refused hclean⟩
  · obtain ⟨hkeeps, hdots⟩ := ViewName.sanitize?_eq_some hclean
    have hcharacters : ∀ c ∈ clean.toList,
        c.isAlphanum = true ∨ c = '_' ∨ c = '.' ∨ c = '-' := by
      intro c hc
      simpa [ViewName.keeps, or_assoc] using hkeeps c hc
    have honly := onlyKeeps_compile h.plainCache files hclean
    rw [files_view]
    exact ⟨hcharacters, hdots, (ViewName.fileName hclean).names_text,
      (ViewName.fileName hclean).plain, ViewName.sanitize?_of_sanitize? hclean, honly, honly⟩
  · have hnames' : ∀ clean, ViewName.sanitize? other = some clean →
        ViewName.sanitize? name ≠ some clean := fun clean hother hname => hnames clean hname hother
    have hafter := verdict_after h files hnames
    have hafter' := verdict_after h files hnames'
    have hcomm := carryOut_comm h.plainCache files
      (fun clean text time (hverdict : page.verdict files name = .document clean text time) =>
        (exists_of_verdict hverdict).1)
      (fun clean text time (hverdict : page.verdict files other = .document clean text time) =>
        (exists_of_verdict hverdict).1) hnames
    rw [files_compile] at hafter hafter'
    simp only [result_compile, files_compile, hafter, hafter']
    exact hcomm

/-- The views `a` and `b` are there, and nothing is kept yet. The name `../b` becomes `..b`, which
is another one, and of `../` nothing is left that is a name. -/
theorem views_stay_apart_before_first_use :
    ∃ (page : Page) (files : FileSystem), page.DirectoriesApart ∧
      files.look? ["cache"] = none ∧
      (page.compile files "../").files = files ∧
      (page.compile files "a").result = .ok "cache/a.html" ∧
      page.OnlyKeeps "a" files (page.compile files "a").files ∧
      (page.compile (page.compile files "b").files "a").result = .ok "cache/a.html" ∧
      (page.compile (page.compile files "a").files "../b").result =
        (page.compile files "../b").result ∧
      ∀ address, (page.compile (page.compile files "a").files "b").files.look? address =
        (page.compile (page.compile files "b").files "a").files.look? address := by
  let page : Page := { viewName := "index" }
  let files : FileSystem := ⟨.directory none ⟨[("views", .directory none
    ⟨[("a", .file "p|x\n".toUTF8.toList ⟨1, 0⟩), ("b", .file "p|y\n".toUTF8.toList ⟨1, 0⟩)]⟩)]⟩⟩
  have h : page.DirectoriesApart :=
    ⟨by decide +kernel, by decide +kernel, by decide +kernel, by decide +kernel⟩
  have ha : ViewName.sanitize? "a" = some "a" := by decide +kernel
  have hb : ViewName.sanitize? "b" = some "b" := by decide +kernel
  have hup : ViewName.sanitize? "../b" = some "..b" := by decide +kernel
  have hnone : ViewName.sanitize? "../" = none := by decide +kernel
  obtain ⟨hrefused, howns, hcomm⟩ := views_stay_apart h files
  have hok : (page.compile files "a").result = .ok "cache/a.html" := by decide +kernel
  obtain ⟨_, hsecond, hfiles⟩ := hcomm "a" "b" (by rw [ha, hb]; rintro _ ⟨⟩; decide)
  obtain ⟨hother, _⟩ := hcomm "a" "../b" (by rw [ha, hup]; rintro _ ⟨⟩; decide)
  exact ⟨page, files, h, by decide +kernel, (hrefused "../" hnone).1, hok,
    (howns "a" "a" ha).2.2.2.2.2.1, hsecond.trans hok, hother, hfiles⟩

end TabMarkup
