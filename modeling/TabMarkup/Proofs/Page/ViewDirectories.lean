import TabMarkup.Proofs.Page.OwnDocument
import TabMarkup.Proofs.Text.Encoding

/-!
# Two directories of views

A page can be set to another directory of views while its documents stay where they are. A document
that was kept of a view in the first directory is shown for the view of the same name in the second
one exactly if the two have the same time; otherwise the view is shown as if nothing had been kept.
-/

namespace TabMarkup

open FileSystem

/-! ## Names of views, whatever their directory -/

/-- The name of a file that is there is not too long. -/
theorem size_le_of_stat {files : FileSystem} (directory : String) (name : FileName) {entry : Entry}
    (h : files.stat (Page.join directory name.text) = .ok entry) :
    name.text.utf8ByteSize ≤ nameLimit := by
  obtain ⟨before, hnames, _⟩ := exists_names_join directory name
  obtain ⟨hempty, hdot, hdots⟩ := name.plain
  obtain ⟨trail, hlocate, _⟩ := stat_eq_ok.mp h
  obtain ⟨_, _, hwalk⟩ := locate_eq_ok.mp hlocate
  rw [hnames, walk_append] at hwalk
  obtain ⟨parent, _, hlast⟩ := bind_eq_ok.mp hwalk
  obtain ⟨_, _, _, ⟨hstays, _⟩ | ⟨_, hup, _⟩ | ⟨_, _, hsize, _⟩⟩ := walk_cons_eq_ok.mp hlast
  · exact absurd hstays (by simp [hempty, hdot])
  · exact absurd hup hdots
  · exact hsize

namespace Page

variable {page : Page} {files kept : FileSystem} {name clean text : String} {time : Time}
  {view : Entry}

/-! ## What is shown -/

/-- A file with the bytes of a document is read as that document. -/
theorem readDocument_of_stat {path : String}
    (h : files.stat path = .ok (.file (Utf8.encode text.toList) time)) :
    readDocument files path = .ok text := by
  have hbytes : files.readBytes path = .ok (Utf8.encode text.toList) := by
    rw [readBytes, h]
    rfl
  simp only [readDocument, hbytes, Utf8.decode?_encode, String.ofList_toList]

/-- What is shown of a document that was just kept is its rendered form. -/
theorem shown_keep (page : Page) (files : FileSystem) (clean text : String) (time : Time) :
    page.shown (page.keep files clean text time) =
      (page.keep files clean text time).1.bind fun _ =>
        (render text page.bindings page.statics).text.mapError .render := by
  rcases keep_result page files clean text time with ⟨_, _, _, hkeep⟩ | ⟨written, hwrite, hkeep⟩
  · rw [hkeep]
    rfl
  · rw [hkeep]
    simp only [shown, readDocument_of_stat (stat_of_write hwrite), Except.bind]

/-! ## Where nothing is kept -/

/-- Nothing is current where nothing is kept. -/
theorem not_isCurrent_of_look? (hclean : ViewName.sanitize? name = some clean)
    (hnone : files.look? (page.documentAddress clean) = none) (view : Entry) :
    isCurrent files (page.cachePath clean) view = false := by
  cases hstat : files.stat (page.cachePath clean) with
  | error error => simp only [isCurrent, hstat]
  | ok document =>
    have hlook := look?_of_stat_cachePath hclean hstat
    rw [hnone] at hlook
    cases hlook

/-- Where nothing is kept, the verdict is an error or a document to keep. -/
theorem verdict_ne_ok (page : Page) (hclean : ViewName.sanitize? name = some clean)
    (hnone : files.look? (page.documentAddress clean) = none) (path : String) :
    page.verdict files name ≠ .answer (.ok path) := by
  cases hstat : files.stat (page.viewPath clean) with
  | error error =>
    rw [verdict_of_error hclean hstat]
    simp
  | ok view =>
    rw [verdict_of_ok hclean hstat, not_isCurrent_of_look? hclean hnone]
    exact page.verdictOn_ne_ok clean view path

/-- After a document was kept where nothing was, what is shown is the same, if the verdict is. -/
theorem shown_after_keep (page : Page) (hcache : NeverUp page.config.cacheDir)
    (hclean : ViewName.sanitize? name = some clean)
    (hnone : files.look? (page.documentAddress clean) = none)
    (hverdict : page.verdict (page.keep files clean text time).2 name = page.verdict files name) :
    (page.view (page.keep files clean text time).2 name).result =
      (page.view files name).result := by
  rw [result_view, result_view, hverdict]
  cases hcase : page.verdict files name with
  | answer result =>
    cases result with
    | error error => rfl
    | ok path => exact absurd hcase (page.verdict_ne_ok hclean hnone path)
  | document clean' text' time' =>
    obtain ⟨hclean', _⟩ := exists_of_verdict hcase
    rw [hclean] at hclean'
    cases hclean'
    change page.shown (page.keep _ clean text' time') = page.shown (page.keep _ clean text' time')
    rw [shown_keep, shown_keep, keep_after_same hcache hclean]

/-! ## Missing views -/

/-- A view whose names cannot be followed is not shown, for the same reason. -/
theorem result_view_of_access (hclean : ViewName.sanitize? name = some clean)
    (hpath : PlainPath (page.viewPath clean)) {error : FileError}
    (h : files.access (names (page.viewPath clean)) = .error error) :
    (page.view files name).result = .error (.file (page.viewPath clean) error) := by
  rw [result_view, verdict_of_error hclean ((stat_eq_error_iff hpath).mpr h)]
  rfl

/-! ## A view after another one was kept -/

/-- The directory of the views is a path that does not go up, with names that are not too long, and
not inside the directory of the kept documents; and the view is not on the way there. -/
structure ClearOfCache (page : Page) (clean : String) : Prop where
  neverUp : NeverUp page.config.viewDir
  short : ∀ part ∈ names page.config.viewDir, part.utf8ByteSize ≤ nameLimit
  outside : ¬ page.cacheAddress <+: destination [] (names page.config.viewDir)
  notOnWay : ¬ page.viewAddress clean <+: page.cacheAddress

/-- The way to a view is followed as before when the document of another one is kept. Where a
directory on it is new, the name behind it is the one that is missing now. -/
theorem reach_of_onlyKeepsAt (hkeeps : page.OnlyKeepsAt clean files kept)
    (hcache : NeverUp page.config.cacheDir) (hsize : clean.utf8ByteSize ≤ nameLimit)
    (h : page.ClearOfCache clean) :
    kept.reach [] (page.viewAddress clean) = files.reach [] (page.viewAddress clean) := by
  have hshort : ∀ part ∈ page.viewAddress clean, part.utf8ByteSize ≤ nameLimit := by
    rw [viewAddress, destination_of_neverUp h.neverUp, List.forall_mem_append]
    exact ⟨fun part hpart => h.short part (List.mem_filter.mp hpart).1, by simpa using hsize⟩
  refine reach_eq_of_added (fun before part after heq => ?_) ?_
  · rcases hkeeps before with hsame | ⟨rfl, _⟩ | ⟨hnone, hdirectory, _⟩
    · exact Or.inl hsame
    · exact absurd ((List.prefix_append _ _).trans (on_way_of_split heq)) h.outside
    · exact Or.inr ⟨hnone, hdirectory, hshort part (by simp [heq])⟩
  · rcases hkeeps (page.viewAddress clean) with hsame | ⟨hplace, _⟩ | ⟨_, _, hpasses⟩
    · exact hsame
    · have hdirectory := (List.append_inj' hplace rfl).1
      exact absurd (hdirectory ▸ List.prefix_refl _) h.outside
    · exact absurd (on_way_of_passesThrough hcache hpasses) h.notOnWay

/-- A missing view stays missing, and for the same reason, when the document of another one is
kept. -/
theorem stat_error_of_onlyKeepsAt (hkeeps : page.OnlyKeepsAt clean files kept)
    (hcache : NeverUp page.config.cacheDir) (hclean : ViewName.sanitize? name = some clean)
    (hsize : clean.utf8ByteSize ≤ nameLimit) (h : page.ClearOfCache clean) {error : FileError}
    (hstat : files.stat (page.viewPath clean) = .error error) :
    kept.stat (page.viewPath clean) = .error error := by
  rw [stat_eq_error_iff_map, stat_viewPath h.neverUp hclean] at hstat ⊢
  rw [reach_of_onlyKeepsAt hkeeps hcache hsize h]
  exact hstat

/-- A view that is there stays what it is when the document of another one is kept where nothing
was. -/
theorem stat_ok_of_onlyKeepsAt (hkeeps : page.OnlyKeepsAt clean files kept)
    (hnone : files.look? (page.documentAddress clean) = none) {path : String}
    (hstat : files.stat path = .ok view) :
    ∃ view', kept.stat path = .ok view' ∧ view'.kind = view.kind := by
  obtain ⟨trail, hlocate, hentry⟩ := stat_eq_ok.mp hstat
  obtain ⟨trail', hlocate', haddress⟩ :=
    locate_of_directories (fun _ => hkeeps.directory) hlocate
  have hlook := look?_address (hasTrail_of_locate hlocate)
  have hlook' := look?_address (hasTrail_of_locate hlocate')
  rw [hentry] at hlook
  have hsame : kept.look? (address trail) = files.look? (address trail) := by
    rcases hkeeps (address trail) with hsame | ⟨hplace, _⟩ | ⟨hnothing, _⟩
    · exact hsame
    · rw [← hplace, hlook] at hnone
      cases hnone
    · rw [hlook] at hnothing
      cases hnothing
  rw [haddress, hsame, hlook] at hlook'
  obtain ⟨view', hview', hkind⟩ := Option.map_eq_some_iff.mp hlook'.symm
  exact ⟨view', stat_eq_ok.mpr ⟨trail', hlocate', hview'⟩, hkind⟩

/-- Compiling the view in the first directory keeps a document, and afterwards the view in the
second directory has the time of that document. -/
def SharesTime (page : Page) (files kept : FileSystem) (first second name clean : String) : Prop :=
  ∃ path bytes time view, ((page.setViewDir first).compile files name).result = .ok path ∧
    files.stat ((page.setViewDir first).viewPath clean) = .ok (.file bytes time) ∧
    kept.stat ((page.setViewDir second).viewPath clean) = .ok view ∧ view.time? = some time

/-- Where the time of the second view is not that of the kept document, the verdict on it is as if
nothing had been kept. -/
theorem verdict_after_keep (page : Page) (hcache : NeverUp page.config.cacheDir)
    (hclean : ViewName.sanitize? name = some clean)
    (hnone : files.look? (page.documentAddress clean) = none)
    (hsize : clean.utf8ByteSize ≤ nameLimit)
    (hclear : ∀ error, files.stat (page.viewPath clean) = .error error →
      page.ClearOfCache clean)
    (hother : ∀ path, (page.keep files clean text time).1 = .ok path → ∀ view,
      (page.keep files clean text time).2.stat (page.viewPath clean) = .ok view →
        view.time? ≠ some time) :
    page.verdict (page.keep files clean text time).2 name = page.verdict files name := by
  have hkeeps : page.OnlyKeepsAt clean files _ := onlyKeepsAt_keep hclean files text time
  cases hstat : files.stat (page.viewPath clean) with
  | error error =>
    have hstat' :=
      stat_error_of_onlyKeepsAt hkeeps hcache hclean hsize (hclear error hstat) hstat
    rw [verdict_of_error hclean hstat, verdict_of_error hclean hstat']
  | ok view =>
    obtain ⟨view', hstat', hkind⟩ := stat_ok_of_onlyKeepsAt hkeeps hnone hstat
    have hcurrent : isCurrent (page.keep files clean text time).2 (page.cachePath clean) view' =
        false := by
      rcases keep_result page files clean text time with
        ⟨_, _, _, hkeep⟩ | ⟨written, hwrite, hkeep⟩
      · rw [hkeep]
        refine not_isCurrent_of_look? hclean (Eq.trans ?_ hnone) view'
        refine (onlyAddsAt_makeDirectories files _).look?_eq fun hpasses => ?_
        exact page.documentAddress_not_prefix_cacheAddress clean
          (on_way_of_passesThrough hcache hpasses)
      · rw [hkeep] at hother hstat'
        have htime : ((Entry.file (Utf8.encode text.toList) time).time? == view'.time?) = false :=
          beq_eq_false_iff_ne.mpr (hother _ rfl view' hstat').symm
        rw [hkeep]
        simp only [isCurrent, stat_of_write hwrite, htime, Bool.and_false]
    rw [verdict_of_ok hclean hstat, verdict_of_ok hclean hstat', hcurrent,
      not_isCurrent_of_look? hclean hnone, verdictOn_congr hkind]

/-- A view with the time of a document that is there is shown as that document. -/
theorem shown_of_time (page : Page) (hclean : ViewName.sanitize? name = some clean)
    (hkept : files.stat (page.cachePath clean) = .ok (.file (Utf8.encode text.toList) time))
    (hstat : files.stat (page.viewPath clean) = .ok view) (htime : view.time? = some time) :
    (page.view files name).result =
      (render text page.bindings page.statics).text.mapError .render := by
  have hcurrent : isCurrent files (page.cachePath clean) view = true := by
    simp only [isCurrent, hkept]
    rw [htime]
    simp [Entry.time?]
  rw [result_view, verdict_of_ok hclean hstat, if_pos hcurrent]
  simp only [carryOut, shown, readDocument_of_stat hkept]

end Page

open Page

/-- A page that is set from one directory of views to another one, with nothing kept yet of a view,
shows the view of the directory that it is set to, whether or not the other one was compiled or
shown before: unless the view has, by then, just the time of the document that was kept. In that
case the document is shown, which the view in the other directory composes to. The path of the
directory for the documents is one that does not go up, and a view that is missing is clear of that
directory; for the document that is shown by its time, neither matters. -/
theorem view_after_setViewDir {page : Page} (files : FileSystem) (first second name : String)
    {kept : FileSystem}
    (hkept : kept = ((page.setViewDir first).compile files name).files ∨
      kept = ((page.setViewDir first).view files name).files) :
    (ViewName.sanitize? name = none →
      ((page.setViewDir second).view kept name).result =
        ((page.setViewDir second).view files name).result) ∧
    ∀ clean, ViewName.sanitize? name = some clean →
      files.look? (page.documentAddress clean) = none →
      (NeverUp page.config.cacheDir →
        (∀ error, files.stat ((page.setViewDir second).viewPath clean) = .error error →
          (page.setViewDir second).ClearOfCache clean) →
        ¬ page.SharesTime files kept first second name clean →
        ((page.setViewDir second).view kept name).result =
          ((page.setViewDir second).view files name).result) ∧
      (page.SharesTime files kept first second name clean →
        ∃ bytes time document,
          files.stat ((page.setViewDir first).viewPath clean) = .ok (.file bytes time) ∧
          Composes bytes document ∧
          ((page.setViewDir second).view kept name).result =
            (render document page.bindings page.statics).text.mapError .render) := by
  have hcompiled : kept = ((page.setViewDir first).compile files name).files := by
    rcases hkept with hkept | hkept
    · exact hkept
    · rw [hkept, files_view]
  constructor
  · intro hclean
    rw [hcompiled, files_compile_of_refused hclean]
  intro clean hclean hnone
  rw [files_compile] at hcompiled
  unfold SharesTime
  rw [result_compile]
  cases hverdict : (page.setViewDir first).verdict files name with
  | answer result =>
    rw [hverdict] at hcompiled
    change kept = files at hcompiled
    rw [hcompiled]
    refine ⟨fun _ _ _ => rfl, fun ⟨path, _, _, _, hresult, _⟩ => ?_⟩
    change result = .ok path at hresult
    rw [hresult] at hverdict
    exact absurd hverdict (verdict_ne_ok (page.setViewDir first) hclean hnone path)
  | document clean' text time =>
    obtain ⟨hclean', bytes, hstat, hcomposes⟩ := exists_of_verdict hverdict
    rw [hclean] at hclean'
    cases hclean'
    rw [hverdict] at hcompiled
    -- The directory of the views plays no part in keeping a document.
    change kept = (page.keep files clean text time).2 at hcompiled
    have hsize : clean.utf8ByteSize ≤ nameLimit :=
      size_le_of_stat first (ViewName.fileName hclean) hstat
    refine ⟨fun hcache hclear hnot => ?_,
      fun ⟨path, bytes', time', view, hresult, hstat', hview, htime⟩ => ?_⟩
    · rw [hcompiled]
      refine shown_after_keep (page.setViewDir second) hcache hclean hnone ?_
      refine verdict_after_keep (page.setViewDir second) hcache hclean hnone hsize hclear ?_
      intro path hresult view hview htime
      exact hnot ⟨path, bytes, time, view, hresult, hstat, hcompiled ▸ hview, htime⟩
    · rw [hstat] at hstat'
      cases hstat'
      refine ⟨bytes, time, text, hstat, hcomposes, ?_⟩
      rcases keep_result page files clean text time with
        ⟨_, _, _, hkeep⟩ | ⟨written, hwrite, hkeep⟩
      · change (page.keep files clean text time).1 = .ok path at hresult
        rw [hkeep] at hresult
        cases hresult
      · rw [hkeep] at hcompiled
        rw [hcompiled] at hview ⊢
        exact shown_of_time (page.setViewDir second) hclean (stat_of_write hwrite) hview htime

/-- The views `a/index` and `b/index` have different times, and nothing is kept yet. The path of
the directory for what is kept has names that lead nowhere. -/
theorem view_after_setViewDir_other_time :
    ∃ (page : Page) (files : FileSystem), page.config.cacheDir = "./site//cache/" ∧
      files.look? (page.documentAddress "index") = none ∧
      ((page.setViewDir "a").compile files "index").result = .ok "./site//cache/index.html" ∧
      ((page.setViewDir "b").view ((page.setViewDir "a").compile files "index").files
        "index").result = .ok "<p>two</p>\n" := by
  let page : Page := { viewName := "index", config := { cacheDir := "./site//cache/" } }
  let files : FileSystem := ⟨.directory none ⟨[
    ("a", .directory none ⟨[("index", .file "p|one\n".toUTF8.toList ⟨1, 0⟩)]⟩),
    ("b", .directory none ⟨[("index", .file "p|two\n".toUTF8.toList ⟨2, 0⟩)]⟩)]⟩⟩
  let kept : FileSystem := ((page.setViewDir "a").compile files "index").files
  have hcache : NeverUp page.config.cacheDir := by decide +kernel
  have hclean : ViewName.sanitize? "index" = some "index" := by decide +kernel
  have hnone : files.look? (page.documentAddress "index") = none := by decide +kernel
  have hfirst : (files.stat ((page.setViewDir "a").viewPath "index")).toOption.bind Entry.time? =
      some ⟨1, 0⟩ := by decide +kernel
  have hsecond : (kept.stat ((page.setViewDir "b").viewPath "index")).toOption.bind Entry.time? =
      some ⟨2, 0⟩ := by decide +kernel
  have hfound : (files.stat ((page.setViewDir "b").viewPath "index")).toOption.isSome = true := by
    decide +kernel
  have hviews := (view_after_setViewDir files "a" "b" "index"
    (Or.inl (Eq.refl kept))).2 "index" hclean hnone
  have hsame := hviews.1 hcache (fun error herror => by rw [herror] at hfound; cases hfound) ?_
  · exact ⟨page, files, rfl, hnone, by decide +kernel, hsame.trans (by decide +kernel)⟩
  · rintro ⟨path, bytes, time, view, _, hview, hview', htime⟩
    rw [hview] at hfirst
    rw [hview'] at hsecond
    cases hfirst
    change view.time? = _ at hsecond
    rw [hsecond] at htime
    cases htime

/-- The name of 256 times the letter `a` is one byte longer than a name can be. -/
theorem exists_long_name : ∃ long : FileName, long.text.utf8ByteSize = 256 := by
  have hsize : (String.ofList (List.replicate 256 'a')).utf8ByteSize = 256 := by decide +kernel
  have hplain : PlainName (String.ofList (List.replicate 256 'a')) := by
    refine ⟨?_, ?_, ?_⟩
    all_goals
      intro heq
      rw [heq] at hsize
      revert hsize
      decide
  have hslash : '/' ∉ (String.ofList (List.replicate 256 'a')).toList := by
    rw [String.toList_ofList]
    intro hmem
    exact absurd (List.eq_of_mem_replicate hmem) (by decide)
  exact ⟨⟨_, hplain, hslash⟩, hsize⟩

/-- While the directory `x` is missing, it is not seen that a name in it is too long. -/
theorem view_in_long {page : Page} {files : FileSystem} {long : FileName}
    (hlong : long.text.utf8ByteSize = 256) (hviews : page.config.viewDir = join "x" long.text)
    (htop : files.look? [] = some .directory) :
    (files.look? ["x"] = none → (page.view files "index").result =
      .error (.file (page.viewPath "index") .notFound)) ∧
    (files.look? ["x"] = some .directory → (page.view files "index").result =
      .error (.file (page.viewPath "index") .nameTooLong)) := by
  have hclean : ViewName.sanitize? "index" = some "index" := by decide +kernel
  have hx : PlainPath "x" := by decide +kernel
  have hplain : PlainPath page.config.viewDir := hviews ▸ plainPath_join hx long
  have hpath : PlainPath (page.viewPath "index") :=
    plainPath_join hplain (ViewName.fileName hclean)
  have hnames : names (page.viewPath "index") = ["x", long.text, "index"] := by
    have hview : names (page.viewPath "index") = names page.config.viewDir ++ ["index"] :=
      names_join hplain (ViewName.fileName hclean)
    rw [hview, hviews, names_join hx long]
    rfl
  have hsize : ¬ pathLimit < pathSize ["x", long.text, "index"] := by
    rw [pathSize_cons_cons, pathSize_cons_cons, hlong]
    decide +kernel
  have haccess : files.access (names (page.viewPath "index")) =
      files.reach ["x"] [long.text, "index"] := by
    rw [hnames, access, if_neg hsize, reach_of_directory htop (by decide), List.nil_append]
  refine ⟨fun hmissing => result_view_of_access hclean hpath ?_,
    fun hdirectory => result_view_of_access hclean hpath ?_⟩
  · rw [haccess, reach_of_none hmissing]
  · rw [haccess, reach_of_tooLong hdirectory (hlong ▸ by decide)]

theorem directoriesApart_of_long {page : Page} {long : FileName}
    (hlong : long.text.utf8ByteSize = 256) (hviews : page.config.viewDir = join "x" long.text)
    (hcache : page.config.cacheDir = "x/cache") : page.DirectoriesApart := by
  have hx : PlainPath "x" := by decide +kernel
  have hnames : names page.config.viewDir = ["x", long.text] := hviews ▸ names_join hx long
  have hnames' : names page.config.cacheDir = ["x", "cache"] := hcache ▸ by decide +kernel
  have hne : long.text ≠ "cache" := by
    intro heq
    rw [heq] at hlong
    revert hlong
    decide
  refine ⟨hviews ▸ plainPath_join hx long, hcache ▸ by decide +kernel, ?_, ?_⟩
  · rw [hnames, hnames']
    simpa using hne.symm
  · rw [hnames, hnames']
    simpa using hne

/-- Each condition is needed. The views `a/index` and `b/index` have the same time, and after the
first one is compiled, it is shown for the second. The view `site/cache` is missing until
`site/cache` is made for the kept documents, and then it is a directory. A name in the directory
`x/aa...` is too long, which is not seen until `x` is made on the way to the kept documents. The
view `cache/../b/index` is not found until `cache` is made. And of the path `x/../b/c`, it is not
seen that `b` is a file until `x` is made, which comes after `b` was to be made. -/
theorem view_after_setViewDir_not_same :
    (∃ (page : Page) (files : FileSystem),
      (page.setViewDir "a").DirectoriesApart ∧ (page.setViewDir "b").DirectoriesApart ∧
      files.look? (page.cachePlace "index") = none ∧
      ((page.setViewDir "b").view files "index").result = .ok "<p>two</p>\n" ∧
      ((page.setViewDir "b").view ((page.setViewDir "a").compile files "index").files
        "index").result = .ok "<p>one</p>\n") ∧
    (∃ (page : Page) (files : FileSystem), page.config.cacheDir = "site/cache" ∧
      files.look? (page.cachePlace "cache") = none ∧
      ((page.setViewDir "site").view files "cache").result =
        .error (.file "site/cache" .notFound) ∧
      ((page.setViewDir "site").view ((page.setViewDir "a").compile files "cache").files
        "cache").result = .error (.compile "site/cache" (refusal .isDirectory))) ∧
    (∃ (page : Page) (files : FileSystem) (directory : String), page.config.cacheDir = "x/cache" ∧
      (page.setViewDir directory).DirectoriesApart ∧
      files.look? (page.cachePlace "index") = none ∧
      ((page.setViewDir directory).view files "index").result =
        .error (.file ((page.setViewDir directory).viewPath "index") .notFound) ∧
      ((page.setViewDir directory).view ((page.setViewDir "a").compile files "index").files
        "index").result =
          .error (.file ((page.setViewDir directory).viewPath "index") .nameTooLong)) ∧
    (∃ (page : Page) (files : FileSystem), page.config.cacheDir = "cache" ∧
      files.look? (page.cachePlace "index") = none ∧
      ((page.setViewDir "cache/../b").view files "index").result =
        .error (.file "cache/../b/index" .notFound) ∧
      ((page.setViewDir "cache/../b").view ((page.setViewDir "a").compile files "index").files
        "index").result = .ok "<p>two</p>\n") ∧
    ∃ (page : Page) (files : FileSystem), page.config.cacheDir = "x/../b/c" ∧
      files.look? (page.documentAddress "index") = none ∧
      ((page.setViewDir "d").view files "index").result =
        .error (.file "x/../b/c" .alreadyExists) ∧
      ((page.setViewDir "d").view ((page.setViewDir "a").compile files "index").files
        "index").result = .error (.file "x/../b/c" .notDirectory) := by
  let one : Entry := .file "p|one\n".toUTF8.toList ⟨1, 0⟩
  let two : Entry := .file "p|two\n".toUTF8.toList ⟨1, 0⟩
  let later : Entry := .file "p|two\n".toUTF8.toList ⟨2, 0⟩
  obtain ⟨long, hlong⟩ := exists_long_name
  refine ⟨⟨{ viewName := "index" }, ⟨.directory none ⟨[("a", .directory none ⟨[("index", one)]⟩),
      ("b", .directory none ⟨[("index", two)]⟩)]⟩⟩, ?_⟩,
    ⟨{ viewName := "index", config := { cacheDir := "site/cache" } },
      ⟨.directory none ⟨[("a", .directory none ⟨[("cache", one)]⟩)]⟩⟩, ?_⟩,
    ⟨{ viewName := "index", config := { cacheDir := "x/cache" } },
      ⟨.directory none ⟨[("a", .directory none ⟨[("index", one)]⟩)]⟩⟩, join "x" long.text, ?_⟩,
    ⟨{ viewName := "index" }, ⟨.directory none ⟨[("a", .directory none ⟨[("index", one)]⟩),
      ("b", .directory none ⟨[("index", later)]⟩)]⟩⟩, ?_⟩,
    ⟨{ viewName := "index", config := { cacheDir := "x/../b/c" } },
      ⟨.directory none ⟨[("a", .directory none ⟨[("index", one)]⟩),
        ("d", .directory none ⟨[("index", later)]⟩), ("b", one)]⟩⟩, ?_⟩⟩
  · exact ⟨⟨by decide +kernel, by decide +kernel, by decide +kernel, by decide +kernel⟩,
      ⟨by decide +kernel, by decide +kernel, by decide +kernel, by decide +kernel⟩,
      by decide +kernel, by decide +kernel, by decide +kernel⟩
  · exact ⟨rfl, by decide +kernel, by decide +kernel, by decide +kernel⟩
  · refine ⟨rfl, directoriesApart_of_long hlong rfl rfl, by decide +kernel,
      (view_in_long hlong rfl rfl).1 rfl,
      (view_in_long hlong rfl (by decide +kernel)).2 (by decide +kernel)⟩
  · exact ⟨rfl, by decide +kernel, by decide +kernel, by decide +kernel⟩
  · exact ⟨rfl, by decide +kernel, by decide +kernel, by decide +kernel⟩

end TabMarkup
