import TabMarkup.Page
import TabMarkup.Proofs.FileSystem.Entering
import TabMarkup.Proofs.Text.Cut

/-!
# Where the files of a page stand

A view and its kept document each stand at one address, right below the directory of its kind.
Where the two directories are apart, no view is on the way to a kept document or is one.
-/

namespace TabMarkup

open FileSystem

/-! ## Files in a directory -/

/-- The name of one file in a directory: a plain name without a slash. -/
@[ext] structure FileName where
  text : String
  plain : PlainName text
  noSlash : '/' ∉ text.toList

/-- The name of a file is the only one on the way to it from its directory. -/
theorem FileName.names_text (name : FileName) : names name.text = [name.text] := by
  rw [names, Text.splitOn_of_notMem name.noSlash, List.map_singleton, String.ofList_toList]

/-- The last name on the way to a file in any directory is its own, and those before it lead to the
directory. -/
theorem exists_names_join (directory : String) (name : FileName) :
    ∃ before, names (Page.join directory name.text) = before ++ [name.text] ∧
      steps before = steps (names directory) := by
  have hbehind (before : List Char) :
      (Text.splitOn '/' (before ++ '/' :: name.text.toList)).map String.ofList =
        (Text.splitOn '/' before).map String.ofList ++ [name.text] := by
    rw [Text.splitOn_append, List.map_append]
    exact congrArg _ name.names_text
  unfold Page.join
  split
  · rename_i hcondition
    rcases hcondition with rfl | hlast
    · exact ⟨[], by simpa using name.names_text, by decide⟩
    · have hslash := List.dropLast_append_getLast? '/' hlast
      have htext : (directory ++ name.text).toList =
          directory.toList.dropLast ++ '/' :: name.text.toList := by
        rw [String.toList_append, ← hslash]
        simp
      have hnames : names directory =
          (Text.splitOn '/' directory.toList.dropLast).map String.ofList ++ [""] := by
        rw [names, ← hslash, Text.splitOn_append, List.map_append]
        simp [Text.splitOn]
      rw [names, htext, hnames, steps_append]
      exact ⟨_, hbehind _, by simp [steps]⟩
  · have htext : (directory ++ "/" ++ name.text).toList =
        directory.toList ++ '/' :: name.text.toList := by
      simp
    rw [names, htext]
    exact ⟨_, hbehind _, rfl⟩

/-- A file in a directory stands where the path of the directory leads, under its own name. -/
theorem destination_join (directory : String) (name : FileName) :
    destination [] (names (Page.join directory name.text)) =
      destination [] (names directory) ++ [name.text] := by
  obtain ⟨before, hnames, hbefore⟩ := exists_names_join directory name
  have hlast : ∀ part ∈ [name.text], PlainName part := by simpa using name.plain
  rw [hnames, destination_append, destination_of_plain hlast, ← destination_steps [] before,
    hbefore, destination_steps]

/-- A plain path is not empty and does not end with a slash. -/
theorem FileSystem.PlainPath.join_eq {directory : String} (h : PlainPath directory)
    (name : String) : Page.join directory name = directory ++ "/" ++ name := by
  have hcondition : ¬ (directory = "" ∨ directory.toList.getLast? = some '/') := by
    rintro (rfl | hlast)
    · exact (h "" (by decide)).1 rfl
    · have hsplit := List.dropLast_append_getLast? '/' hlast
      have hmem : "" ∈ names directory := by
        rw [names, ← hsplit, Text.splitOn_append]
        simp [Text.splitOn]
      exact (h "" hmem).1 rfl
  rw [Page.join, if_neg hcondition]

/-- The names of a file in a directory are those of the directory and its own. -/
theorem names_join {directory : String} (h : PlainPath directory) (name : FileName) :
    names (Page.join directory name.text) = names directory ++ [name.text] := by
  rw [h.join_eq, names, names]
  have htext : (directory ++ "/" ++ name.text).toList =
      directory.toList ++ '/' :: name.text.toList := by
    simp
  rw [htext, Text.splitOn_append, Text.splitOn_of_notMem name.noSlash]
  simp

theorem plainPath_join {directory : String} (h : PlainPath directory) (name : FileName) :
    PlainPath (Page.join directory name.text) := by
  intro part hpart
  rw [names_join h, List.mem_append, List.mem_singleton] at hpart
  rcases hpart with hpart | rfl
  · exact h part hpart
  · exact name.plain

/-! ## Names of views -/

namespace ViewName

/-- A name that was cleaned keeps only the characters that it can, and not only dots. -/
theorem sanitize?_eq_some {name clean : String} (h : sanitize? name = some clean) :
    (∀ c ∈ clean.toList, keeps c = true) ∧ ∃ c ∈ clean.toList, c ≠ '.' := by
  unfold sanitize? at h
  dsimp only at h
  split at h
  · cases h
  · rename_i hdots
    cases h
    rw [String.toList_ofList]
    constructor
    · intro c hc
      exact (List.mem_filter.mp hc).2
    · simpa [and_assoc] using hdots

theorem slash_notMem_of_sanitize? {name clean : String} (h : sanitize? name = some clean) :
    '/' ∉ clean.toList := by
  intro hslash
  have hkeeps := (sanitize?_eq_some h).1 '/' hslash
  revert hkeeps
  decide

/-- The file name of a view. -/
def fileName {name clean : String} (h : sanitize? name = some clean) : FileName where
  text := clean
  plain := by
    obtain ⟨c, hc, hdot⟩ := (sanitize?_eq_some h).2
    refine ⟨?_, ?_, ?_⟩
    all_goals
      rintro rfl
      simp at hc
    · exact hdot hc
    · exact hdot hc
  noSlash := slash_notMem_of_sanitize? h

/-- The file name of the kept document of a view. -/
def documentName {name clean : String} (h : sanitize? name = some clean) : FileName where
  text := clean ++ ".html"
  plain := by
    refine ⟨?_, ?_, ?_⟩
    all_goals
      intro heq
      have hlength := congrArg (fun s : String => s.toList.length) heq
      simp at hlength
  noSlash := by
    simpa using slash_notMem_of_sanitize? h

/-- A view is not named like its kept document. -/
theorem ne_append_html (clean : String) : clean ≠ clean ++ ".html" := by
  intro heq
  have hlength := congrArg (fun text : String => text.toList.length) heq
  simp at hlength

end ViewName

/-! ## Places -/

namespace Page

/-- The address of a view. -/
def viewPlace (page : Page) (clean : String) : List String :=
  names page.config.viewDir ++ [clean]

/-- The address of the kept document of a view. -/
def cachePlace (page : Page) (clean : String) : List String :=
  names page.config.cacheDir ++ [clean ++ ".html"]

/-- The directories of a page are plain, and neither is the other or inside of it. -/
structure DirectoriesApart (page : Page) : Prop where
  plainViews : PlainPath page.config.viewDir
  plainCache : PlainPath page.config.cacheDir
  viewsOutside : ¬ names page.config.cacheDir <+: names page.config.viewDir
  cacheOutside : ¬ names page.config.viewDir <+: names page.config.cacheDir

namespace DirectoriesApart

variable {page : Page}

theorem names_viewPath (h : page.DirectoriesApart) (name : FileName) :
    names (page.viewPath name.text) = page.viewPlace name.text :=
  names_join h.plainViews name

theorem plainPath_viewPath (h : page.DirectoriesApart) (name : FileName) :
    PlainPath (page.viewPath name.text) :=
  plainPath_join h.plainViews name

theorem names_cachePath (h : page.DirectoriesApart) {name clean : String}
    (hclean : ViewName.sanitize? name = some clean) :
    names (page.cachePath clean) = page.cachePlace clean :=
  names_join h.plainCache (ViewName.documentName hclean)

theorem plainPath_cachePath (h : page.DirectoriesApart) {name clean : String}
    (hclean : ViewName.sanitize? name = some clean) : PlainPath (page.cachePath clean) :=
  plainPath_join h.plainCache (ViewName.documentName hclean)

theorem viewPlace_not_prefix_cacheDir (h : page.DirectoriesApart) (name : String) :
    ¬ page.viewPlace name <+: names page.config.cacheDir :=
  fun hpre => h.cacheOutside ((List.prefix_append _ _).trans hpre)

theorem cachePlace_not_prefix_viewDir (h : page.DirectoriesApart) (clean : String) :
    ¬ page.cachePlace clean <+: names page.config.viewDir :=
  fun hpre => h.viewsOutside ((List.prefix_append _ _).trans hpre)

/-- No view is a kept document or on the way to one. -/
theorem viewPlace_not_prefix_cachePlace (h : page.DirectoriesApart) (name clean : String) :
    ¬ page.viewPlace name <+: page.cachePlace clean := by
  intro hpre
  rcases List.prefix_concat_iff.mp hpre with heq | hpre
  · have hdirectory := (List.append_inj' heq rfl).1
    exact h.cacheOutside (hdirectory ▸ List.prefix_refl _)
  · exact h.viewPlace_not_prefix_cacheDir name hpre

theorem viewPlace_ne_cachePlace (h : page.DirectoriesApart) (name clean : String) :
    page.viewPlace name ≠ page.cachePlace clean :=
  fun heq => h.viewPlace_not_prefix_cachePlace name clean (heq ▸ List.prefix_refl _)

end DirectoriesApart

theorem viewPlace_not_prefix_viewDir (page : Page) (name : String) :
    ¬ page.viewPlace name <+: names page.config.viewDir := by
  intro hpre
  have hlength := hpre.length_le
  rw [viewPlace, List.length_append, List.length_singleton] at hlength
  omega

theorem cachePlace_not_prefix_cacheDir (page : Page) (clean : String) :
    ¬ page.cachePlace clean <+: names page.config.cacheDir := by
  intro hpre
  have hlength := hpre.length_le
  rw [cachePlace, List.length_append, List.length_singleton] at hlength
  omega

/-- Different views are kept at different places. -/
theorem cachePlace_inj {page : Page} {clean other : String} :
    page.cachePlace clean = page.cachePlace other ↔ clean = other := by
  constructor
  · intro heq
    have hname := (List.append_inj' heq rfl).2
    simpa using hname
  · rintro rfl
    rfl

end Page

end TabMarkup
