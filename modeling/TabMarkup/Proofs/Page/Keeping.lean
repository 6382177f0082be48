import TabMarkup.Proofs.Page.AnyDirectory
import TabMarkup.Proofs.Page.Verdict

/-!
# Keeping a document

A document is kept by making its directory and writing it there. Where the path of the directory is
plain, that changes nothing but the document and the directories on the way to it, their times
included, and what can be seen at the place of the document decides whether it is kept.
-/

namespace TabMarkup

open FileSystem

namespace Page

variable {page : Page} {files files' made : FileSystem} {name clean text : String} {time : Time}

theorem names_cachePath_of_plain (hcache : PlainPath page.config.cacheDir)
    (hclean : ViewName.sanitize? name = some clean) :
    names (page.cachePath clean) = page.cachePlace clean :=
  names_join hcache (ViewName.documentName hclean)

theorem plainPath_cachePath_of_plain (hcache : PlainPath page.config.cacheDir)
    (hclean : ViewName.sanitize? name = some clean) : PlainPath (page.cachePath clean) :=
  plainPath_join hcache (ViewName.documentName hclean)

/-! ## What is changed -/

/-- Nothing changed but the kept document of one view, which is a file where no directory was, and
directories on the way to it, which are new or had something made in them. -/
structure OnlyKeeps (page : Page) (clean : String) (files files' : FileSystem) : Prop where
  looks : ∀ address, files'.look? address = files.look? address ∨
    (address = page.cachePlace clean ∧ files.look? address ≠ some .directory ∧
      ∃ bytes time, files'.look? address = some (.file bytes time)) ∨
    files.look? address = none ∧ files'.look? address = some .directory ∧
      address <+: names page.config.cacheDir
  times : ∀ address, ¬ address <+: page.cachePlace clean →
    files'.changed? address = files.changed? address

namespace OnlyKeeps

theorem refl (page : Page) (clean : String) (files : FileSystem) :
    page.OnlyKeeps clean files files where
  looks := fun _ => Or.inl rfl
  times := fun _ _ => rfl

/-- What is neither the document nor on the way to it looks as before. -/
theorem look?_eq (h : page.OnlyKeeps clean files files') {address : List String}
    (hnot : ¬ address <+: page.cachePlace clean) : files'.look? address = files.look? address := by
  rcases h.looks address with hsame | ⟨rfl, _⟩ | ⟨_, _, hpre⟩
  · exact hsame
  · exact absurd (List.prefix_refl _) hnot
  · exact absurd (hpre.trans (List.prefix_append _ _)) hnot

/-- All directories are kept. -/
theorem directory (h : page.OnlyKeeps clean files files') {address : List String}
    (hdirectory : files.look? address = some .directory) :
    files'.look? address = some .directory := by
  rcases h.looks address with hsame | ⟨_, hnot, _⟩ | ⟨_, hdirectory', _⟩
  · rw [hsame, hdirectory]
  · exact absurd hdirectory hnot
  · exact hdirectory'

end OnlyKeeps

/-- Keeping a document forgets at most the times of the document and of directories on the way to
it. -/
theorem changed?_keep (hcache : PlainPath page.config.cacheDir)
    (hclean : ViewName.sanitize? name = some clean) (files : FileSystem) (text : String)
    (time : Time) {address : List String} (hnot : ¬ address <+: page.cachePlace clean) :
    (page.keep files clean text time).2.changed? address = files.changed? address := by
  have hmade : (files.makeDirectories (names page.config.cacheDir)).2.changed? address =
      files.changed? address :=
    (onlyForgets_makeDirectories files hcache).changed?_eq fun hpre =>
      hnot (hpre.trans (List.prefix_append _ _))
  rcases keep_result page files clean text time with ⟨_, _, _, hkeep⟩ | ⟨written, hwrite, hkeep⟩
  · rw [hkeep, hmade]
  · rw [hkeep, ← hmade]
    obtain ⟨trail, hlocate, _⟩ := write_ok hwrite
    have hplace : FileSystem.address trail = page.cachePlace clean := by
      rw [address_cachePath hclean hlocate, documentAddress_of_plain hcache]
    have hne : address ≠ FileSystem.address trail := by
      rintro rfl
      exact hnot (hplace ▸ List.prefix_refl _)
    refine (changed?_of_write hwrite hlocate hne).resolve_right ?_
    rintro ⟨_, hpre⟩
    exact hnot (hplace ▸ hpre)

/-- Keeping a document changes nothing but it and directories on the way, whether or not it
succeeds. -/
theorem onlyKeeps_keep (hcache : PlainPath page.config.cacheDir)
    (hclean : ViewName.sanitize? name = some clean) (files : FileSystem) (text : String)
    (time : Time) : page.OnlyKeeps clean files (page.keep files clean text time).2 where
  looks := by
    intro address
    have hkeeps : page.OnlyKeepsAt clean files _ := onlyKeepsAt_keep hclean files text time
    unfold OnlyKeepsAt at hkeeps
    rw [documentAddress_of_plain hcache] at hkeeps
    refine (hkeeps address).imp_right (Or.imp_right fun ⟨hnone, hdirectory, hpasses⟩ => ?_)
    refine ⟨hnone, hdirectory, ?_⟩
    rw [← cacheAddress_of_plain hcache]
    exact on_way_of_passesThrough hcache.neverUp hpasses
  times := fun _ => changed?_keep hcache hclean files text time

/-! ## Where it is kept -/

/-- The directory for the kept documents is there, and its names can be followed. -/
structure HasCache (page : Page) (files : FileSystem) : Prop where
  access : files.access (names page.config.cacheDir) = .ok ()
  directory : files.look? (names page.config.cacheDir) = some .directory

/-- A directory that is kept can still be followed. -/
theorem HasCache.of_onlyKeeps (h : page.HasCache files)
    (hkeeps : page.OnlyKeeps clean files files') : page.HasCache files' := by
  have hdirectory := hkeeps.directory h.directory
  exact ⟨access_eq_ok_iff.mpr ⟨(access_eq_ok_iff.mp h.access).1, by simp [hdirectory]⟩, hdirectory⟩

/-- At a plain path, the directory is there exactly if it need not be made. -/
theorem hasCache_iff_made (hcache : PlainPath page.config.cacheDir) :
    page.HasCache files ↔
      files.makeDirectories (names page.config.cacheDir) = (.ok (), files) := by
  have hne := names_ne_nil page.config.cacheDir
  constructor
  · intro h
    exact makeDirectories_of_isDirectory ((isDirectory_iff hcache hne).mpr ⟨h.access, h.directory⟩)
  · intro hmade
    obtain ⟨haccess, hdirectory⟩ := (isDirectory_iff hcache hne).mp
      (isDirectory_of_makeDirectories (not_empty_of_plain hcache hne) hmade)
    exact ⟨haccess, hdirectory⟩

/-- Where the directory is there, a document is kept unless there is a reason to refuse it. -/
theorem keep_in_cache (h : page.HasCache files) (hcache : PlainPath page.config.cacheDir)
    (hclean : ViewName.sanitize? name = some clean) (text : String) (time : Time) :
    (∃ error, files.writeRefusal? (page.cachePlace clean) = some error ∧
        page.keep files clean text time =
          (.error (.file (page.cachePath clean) error), files)) ∨
      files.writeRefusal? (page.cachePlace clean) = none ∧ ∃ files',
        page.keep files clean text time = (.ok (page.cachePath clean), files') ∧
        files'.look? (page.cachePlace clean) =
          some (.file (Utf8.encode text.toList) time) ∧
        OnlyAt (page.cachePlace clean) files files' := by
  have hpath := plainPath_cachePath_of_plain hcache hclean
  have hnames := names_cachePath_of_plain hcache hclean
  have hdirectory : files.look? (names (page.cachePath clean)).dropLast = some .directory := by
    rw [hnames, cachePlace, List.dropLast_concat]
    exact h.directory
  rcases write_of_refusal hpath hdirectory (Utf8.encode text.toList) time with
    ⟨error, hrefusal, hwrite⟩ | ⟨hrefusal, files', hwrite⟩
  · rw [hnames] at hrefusal
    exact Or.inl ⟨error, hrefusal, keep_of_refused ((hasCache_iff_made hcache).mp h) hwrite⟩
  · obtain ⟨trail, hlocate, _, hfile, honly⟩ := write_ok hwrite
    rw [address_of_locate hpath hlocate, hnames] at hfile honly
    rw [hnames] at hrefusal
    exact Or.inr ⟨hrefusal, files', keep_of_write ((hasCache_iff_made hcache).mp h) hwrite, hfile,
      honly⟩

end Page

end TabMarkup
