import TabMarkup.Proofs.Page.Failure

/-!
# Compiling again

A view that was compiled has a document of its own time, and that of the view is not touched by
keeping it: the two never stand at the same place, whatever the directories of the page are. So a
view that is compiled again is found to be current, and nothing is done (`compile_again`).
-/

namespace TabMarkup

open FileSystem

namespace FileSystem

variable {fs fs' : FileSystem} {path : String} {bytes : List UInt8} {time : Time}

/-- A file whose place looks the same is still found where no directory is lost. -/
theorem stat_of_directories
    (hkept : ∀ address, fs.look? address = some .directory → fs'.look? address = some .directory)
    (hstat : fs.stat path = .ok (.file bytes time))
    (hlook : ∀ trail, fs.locate path = .ok trail →
      fs'.look? (address trail) = fs.look? (address trail)) :
    fs'.stat path = .ok (.file bytes time) := by
  obtain ⟨trail, hlocate, hentry⟩ := stat_eq_ok.mp hstat
  obtain ⟨trail', hlocate', haddress⟩ := locate_of_directories hkept hlocate
  refine stat_of_look? hlocate' ?_
  rw [haddress, hlook trail hlocate, look?_address (hasTrail_of_locate hlocate), hentry]
  rfl

/-- Where only directories were added, files are found as before. -/
theorem OnlyAddsAt.stat_file {places : List String → Prop} (h : OnlyAddsAt places fs fs')
    (hstat : fs.stat path = .ok (.file bytes time)) : fs'.stat path = .ok (.file bytes time) := by
  refine stat_of_directories (fun other hdirectory => ?_) hstat fun trail hlocate => ?_
  · rcases h other with hsame | ⟨hnone, _⟩
    · rw [hsame, hdirectory]
    · rw [hdirectory] at hnone
      cases hnone
  · rcases h (address trail) with hsame | ⟨hnone, _⟩
    · exact hsame
    · obtain ⟨trail', hlocate', hentry⟩ := stat_eq_ok.mp hstat
      rw [hlocate] at hlocate'
      cases hlocate'
      rw [look?_address (hasTrail_of_locate hlocate), hentry] at hnone
      cases hnone

/-- A file that is written somewhere else leaves a file as it was. -/
theorem stat_file_of_write {path' : String} {bytes' : List UInt8} {time' : Time}
    (hwrite : fs.write path' bytes' time' = .ok fs')
    (hother : ∀ trail trail', fs.locate path = .ok trail → fs.locate path' = .ok trail' →
      address trail ≠ address trail')
    (hstat : fs.stat path = .ok (.file bytes time)) : fs'.stat path = .ok (.file bytes time) := by
  obtain ⟨trail', hlocate', hnot, _, honly⟩ := write_ok hwrite
  refine stat_of_directories (fun other hdirectory => ?_) hstat fun trail hlocate =>
    honly _ (hother trail trail' hlocate hlocate')
  rw [honly other fun heq => hnot (heq ▸ hdirectory), hdirectory]

/-- The way to a file in a directory ends with the name of the file, wherever the directory is. -/
theorem getLast?_address_of_locate (directory : String) (name : FileName) {trail : Trail}
    (h : fs.locate (Page.join directory name.text) = .ok trail) :
    (address trail).getLast? = some name.text := by
  obtain ⟨_, _, hwalk⟩ := locate_eq_ok.mp h
  rw [address_of_walk hwalk, address, destination_join]
  exact List.getLast?_concat

end FileSystem

namespace Page

variable {page : Page} {files left : FileSystem} {name clean text path : String}
  {bytes : List UInt8} {time time' : Time}

/-- A view and its document never stand at the same place. -/
theorem address_view_ne_document (hclean : ViewName.sanitize? name = some clean)
    {trail trail' : Trail} (hview : files.locate (page.viewPath clean) = .ok trail)
    (hdocument : files.locate (page.cachePath clean) = .ok trail') :
    address trail ≠ address trail' := by
  intro heq
  have hlast := getLast?_address_of_locate page.config.viewDir (ViewName.fileName hclean) hview
  have hlast' :=
    getLast?_address_of_locate page.config.cacheDir (ViewName.documentName hclean) hdocument
  rw [heq, hlast'] at hlast
  exact ViewName.ne_append_html clean (Option.some.inj hlast).symm

/-- A document that is kept stands at its path with the time that it was given, and a view that is
a file stays what it is. -/
theorem keep_ok (hclean : ViewName.sanitize? name = some clean)
    (hstat : files.stat (page.viewPath clean) = .ok (.file bytes time'))
    (h : page.keep files clean text time = (.ok path, left)) :
    path = page.cachePath clean ∧
      left.stat (page.viewPath clean) = .ok (.file bytes time') ∧
      left.stat path = .ok (.file (Utf8.encode text.toList) time) := by
  have hadds := onlyAddsAt_makeDirectories files (names page.config.cacheDir)
  rcases keep_result page files clean text time with ⟨_, _, _, hkeep⟩ | ⟨written, hwrite, hkeep⟩
  · rw [h] at hkeep
    cases hkeep
  · rw [h] at hkeep
    cases hkeep
    refine ⟨rfl, ?_, stat_of_write hwrite⟩
    exact stat_file_of_write hwrite
      (fun _ _ hview hdocument => address_view_ne_document hclean hview hdocument)
      (hadds.stat_file hstat)

/-- What stands at the path of a view and at that of its document has the same time. -/
structure Agree (page : Page) (files : FileSystem) (clean : String) (time : Time) : Prop where
  view : ∃ view, files.stat (page.viewPath clean) = .ok view ∧ view.time? = some time
  document : ∃ kept, files.stat (page.cachePath clean) = .ok kept ∧ kept.time? = some time

/-- A current document has the time of its view. -/
theorem exists_time_of_isCurrent {view : Entry} (h : isCurrent files path view = true) :
    ∃ time, view.time? = some time ∧
      ∃ kept, files.stat path = .ok kept ∧ kept.time? = some time := by
  unfold isCurrent at h
  split at h
  · cases h
  · rename_i kept hkept
    obtain ⟨hknown, hsame⟩ := Bool.and_eq_true_iff.mp h
    obtain ⟨time, htime⟩ := Option.isSome_iff_exists.mp hknown
    exact ⟨time, htime, kept, hkept, (beq_iff_eq.mp hsame).trans htime⟩

/-- A view that was compiled has a document of its own time, and still has the time that it had. -/
theorem agree_of_compile (h : (page.compile files name).result = .ok path) :
    ∃ clean time view, ViewName.sanitize? name = some clean ∧ path = page.cachePath clean ∧
      files.stat (page.viewPath clean) = .ok view ∧ view.time? = some time ∧
      page.Agree (page.compile files name).files clean time := by
  have hcarried := result_and_files_compile h
  generalize (page.compile files name).files = left at hcarried ⊢
  cases hverdict : page.verdict files name with
  | answer result =>
    rw [hverdict] at hcarried
    cases hcarried
    obtain ⟨clean, view, hclean, rfl, hstat, hcurrent⟩ := exists_of_verdict_ok hverdict
    obtain ⟨time, htime, kept, hkept, htime'⟩ := exists_time_of_isCurrent hcurrent
    exact ⟨clean, time, view, hclean, rfl, hstat, htime, ⟨view, hstat, htime⟩, kept, hkept, htime'⟩
  | document clean text time =>
    obtain ⟨hclean, bytes, hstat, _⟩ := exists_of_verdict hverdict
    rw [hverdict] at hcarried
    obtain ⟨rfl, hview, hdocument⟩ := keep_ok hclean hstat hcarried
    exact ⟨clean, time, _, hclean, rfl, hstat, rfl, ⟨_, hview, rfl⟩, _, hdocument, rfl⟩

/-- Where the times agree, compiling finds the document and does nothing else. -/
theorem Agree.compile_eq (h : page.Agree files clean time)
    (hclean : ViewName.sanitize? name = some clean) :
    page.compile files name =
      { result := .ok (page.cachePath clean), files, events := [.cacheHit clean] } := by
  obtain ⟨view, hview, htime⟩ := h.view
  obtain ⟨kept, hkept, htime'⟩ := h.document
  have hcurrent : isCurrent files (page.cachePath clean) view = true := by
    simp [isCurrent, hkept, htime, htime']
  simp only [compile, hclean, hview, hcurrent, if_true]

/-- A view that was compiled to a path is found there when it is compiled again. -/
theorem compile_again_eq (h : (page.compile files name).result = .ok path) :
    ∃ clean, page.compile (page.compile files name).files name =
      { result := .ok path, files := (page.compile files name).files
        events := [.cacheHit clean] } := by
  obtain ⟨clean, _, _, hclean, rfl, _, _, hagree⟩ := agree_of_compile h
  exact ⟨clean, hagree.compile_eq hclean⟩

/-- A view that was shown is shown again as it was. -/
theorem view_again (h : (page.view files name).result = .ok text) :
    (page.view (page.view files name).files name).result = .ok text ∧
      (page.view (page.view files name).files name).files = (page.view files name).files := by
  obtain ⟨path, document, hcompile, hdocument, hrender⟩ := view_ok h
  obtain ⟨clean, hagain⟩ := compile_again_eq hcompile
  rw [files_view, files_view, hagain]
  refine ⟨?_, rfl⟩
  simp only [view, hagain, hdocument, hrender]
  rfl

end Page

open Page

/-- A view that compiles has a document with exactly the time of the view, which is the time that it
had before. Compiled again, it has the same answer: the document is found, no file is changed and
nothing is compiled. And a view that is shown is shown again with the same text. -/
theorem compile_again {page : Page} {files : FileSystem} {name path : String}
    (h : (page.compile files name).result = .ok path) :
    (∃ clean time view view' kept, ViewName.sanitize? name = some clean ∧
      files.stat (page.viewPath clean) = .ok view ∧ view.time? = some time ∧
      (page.compile files name).files.stat (page.viewPath clean) = .ok view' ∧
      view'.time? = some time ∧
      (page.compile files name).files.stat path = .ok kept ∧ kept.time? = some time ∧
      page.compile (page.compile files name).files name =
        { result := .ok path, files := (page.compile files name).files
          events := [.cacheHit clean] }) ∧
    ∀ text, (page.view files name).result = .ok text →
      (page.view (page.view files name).files name).result = .ok text ∧
        (page.view (page.view files name).files name).files = (page.view files name).files := by
  refine ⟨?_, fun text hview => view_again hview⟩
  obtain ⟨clean, time, view, hclean, rfl, hstat, htime, hagree⟩ := agree_of_compile h
  obtain ⟨view', hview', htime'⟩ := hagree.view
  obtain ⟨kept, hkept, hkeptTime⟩ := hagree.document
  exact ⟨clean, time, view, view', kept, hclean, hstat, htime, hview', htime', hkept, hkeptTime,
    hagree.compile_eq hclean⟩

/-- The views stand in the directory of the kept documents, which is written in a roundabout way,
and an older document is overwritten. The view was changed half a second after the document. -/
theorem compile_again_in_one_directory :
    ∃ (page : Page) (files : FileSystem),
      page.config = { viewDir := "site", cacheDir := "./new/../site//" } ∧
      files.look? ["site", "index"] = some (.file "p|two\n".toUTF8.toList ⟨1, 500000000⟩) ∧
      files.look? ["site", "index.html"] = some (.file [0x6f, 0x6c, 0x64] ⟨1, 0⟩) ∧
      (page.compile files "index").result = .ok "./new/../site//index.html" ∧
      (page.view files "index").result = .ok "<p>two</p>\n" ∧
      (page.view (page.view files "index").files "index").result = .ok "<p>two</p>\n" ∧
      ∃ clean, page.compile (page.compile files "index").files "index" =
        { result := .ok "./new/../site//index.html", files := (page.compile files "index").files
          events := [.cacheHit clean] } := by
  let page : Page :=
    { viewName := "index", config := { viewDir := "site", cacheDir := "./new/../site//" } }
  let files : FileSystem := ⟨.directory none ⟨[("site", .directory none ⟨[
    ("index", .file "p|two\n".toUTF8.toList ⟨1, 500000000⟩),
    ("index.html", .file [0x6f, 0x6c, 0x64] ⟨1, 0⟩)]⟩), ("new", .directory none {})]⟩⟩
  have hcompile : (page.compile files "index").result = .ok "./new/../site//index.html" := by
    decide +kernel
  have hview : (page.view files "index").result = .ok "<p>two</p>\n" := by decide +kernel
  obtain ⟨⟨clean, _, _, _, _, _, _, _, _, _, _, _, hagain⟩, hshown⟩ := compile_again hcompile
  exact ⟨page, files, rfl, by decide +kernel, by decide +kernel, hcompile, hview,
    (hshown _ hview).1, clean, hagain⟩

end TabMarkup
