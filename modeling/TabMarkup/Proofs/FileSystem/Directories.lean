import Mathlib.Data.List.Infix
import TabMarkup.Proofs.FileSystem.Operations

/-!
# What making directories changes

Making a directory with its parents takes nothing away: at most it puts new directories on the way
to the one that is asked for. So a file is placed at the end of a path without changing any other
file.
-/

namespace TabMarkup.FileSystem

/-! ## One directory -/

/-- Plain names have no empty end to take away. -/
theorem withoutEnd_eq_self {names : List String} (hplain : ∀ name ∈ names, PlainName name) :
    withoutEnd names = names := by
  unfold withoutEnd
  cases hrev : names.reverse with
  | nil =>
    rw [List.reverse_eq_nil_iff.mp hrev]
    rfl
  | cons last before =>
    have hmem : last ∈ names := by
      rw [← List.mem_reverse, hrev]
      exact List.mem_cons_self
    have hlast : last ≠ "" := (hplain last hmem).1
    rw [List.dropWhile_cons_of_neg (by simpa using hlast), ← hrev, List.reverse_reverse]

theorem withoutEnd_prefix (names : List String) : withoutEnd names <+: names := by
  rw [withoutEnd, ← List.reverse_suffix, List.reverse_reverse]
  exact List.dropWhile_suffix _

/-- The last name that is not taken away is not empty. -/
theorem getLast?_withoutEnd {names : List String} {name : String}
    (h : (withoutEnd names).getLast? = some name) : name ≠ "" := by
  rw [withoutEnd, List.getLast?_reverse] at h
  have hnot := List.head?_dropWhile_not (fun name => decide (name = "")) names.reverse
  rw [h] at hnot
  simpa using hnot

/-- A directory is made in the directory to which the names before its own lead. Its name is one
that can be given, and nothing has it. -/
theorem exists_walk_of_makeDirectory {fs made : FileSystem} {names : List String}
    (h : fs.makeDirectory names = .ok made) :
    ∃ before name parent time? contents, ¬ pathLimit < pathSize names ∧
      withoutEnd names = before ++ [name] ∧ PlainName name ∧ name.utf8ByteSize ≤ nameLimit ∧
      fs.walk [] before = .ok parent ∧ fs.entry? parent = some (.directory time? contents) ∧
      contents.get? name = none ∧ made = fs.make parent name .emptyDirectory := by
  unfold makeDirectory at h
  dsimp only at h
  split at h
  · cases h
  rename_i hsize
  obtain ⟨parent, hwalk, h⟩ := bind_eq_ok.mp h
  split at h
  · cases h
  · cases h
  · cases h
  · rename_i time? contents name hentry hlast
    split at h
    · cases h
    rename_i hdots
    split at h
    · cases h
    rename_i hlimit
    split at h
    · cases h
    · rename_i hnone
      cases h
      obtain ⟨hdot, hup⟩ := not_or.mp hdots
      exact ⟨_, name, parent, time?, contents, hsize,
        (List.dropLast_append_getLast? name hlast).symm, ⟨getLast?_withoutEnd hlast, hdot, hup⟩,
        Nat.le_of_not_lt hlimit, hwalk, hentry, by simpa using hnone, rfl⟩

/-- The place of a directory that is made is where its names lead. -/
theorem exists_parent_of_makeDirectory {fs made : FileSystem} {names : List String}
    (h : fs.makeDirectory names = .ok made) :
    ∃ parent name time? contents, fs.HasTrail parent ∧
      destination [] (withoutEnd names) = address parent ++ [name] ∧
      fs.entry? parent = some (.directory time? contents) ∧ contents.get? name = none ∧
      made = fs.make parent name .emptyDirectory := by
  obtain ⟨before, name, parent, time?, contents, _, hnames, hname, _, hwalk, hentry, hnone,
    hmade⟩ := exists_walk_of_makeDirectory h
  have hlast : ∀ part ∈ [name], PlainName part := by simpa using hname
  refine ⟨parent, name, time?, contents, HasTrail.walk fs.hasTrail_nil hwalk, ?_, hentry, hnone,
    hmade⟩
  rw [hnames, destination_append, address_of_walk hwalk, destination_of_plain hlast]
  rfl

/-- Plain names are the address at which the directory is made. -/
theorem exists_of_makeDirectory {fs made : FileSystem} {names : List String}
    (hplain : ∀ name ∈ names, PlainName name) (h : fs.makeDirectory names = .ok made) :
    ∃ parent name time? contents, fs.HasTrail parent ∧ names = address parent ++ [name] ∧
      fs.entry? parent = some (.directory time? contents) ∧ contents.get? name = none ∧
      made = fs.make parent name .emptyDirectory := by
  have hmade := exists_parent_of_makeDirectory h
  rwa [withoutEnd_eq_self hplain, destination_of_plain hplain, List.nil_append] at hmade

/-- A directory is made where nothing was, and nothing else changes. -/
theorem makeDirectory_ok_at {fs made : FileSystem} {names : List String}
    (h : fs.makeDirectory names = .ok made) :
    fs.look? (destination [] (withoutEnd names)) = none ∧
      made.look? (destination [] (withoutEnd names)) = some .directory ∧
      OnlyAt (destination [] (withoutEnd names)) fs made := by
  obtain ⟨parent, name, time?, contents, hparent, hplace, hentry, hnone, rfl⟩ :=
    exists_parent_of_makeDirectory h
  rw [hplace]
  have hnothing : ∀ rest, fs.look? (address parent ++ name :: rest) = none := by
    intro rest
    rw [look?_address_append hparent, hentry]
    simp [Entry.look?, hnone]
  obtain ⟨hbelow, helsewhere⟩ := look?_make hparent hentry name .emptyDirectory
  refine ⟨hnothing [], by rw [hbelow []]; rfl, fun other hother => ?_⟩
  by_cases hpre : address parent ++ [name] <+: other
  · obtain ⟨rest, rfl⟩ := hpre
    rw [List.append_assoc, List.singleton_append, hnothing, hbelow]
    cases rest with
    | nil => exact absurd (List.append_nil _) hother
    | cons next rest => rfl
  · exact helsewhere other hpre

theorem makeDirectory_ok {fs made : FileSystem} {names : List String}
    (hplain : ∀ name ∈ names, PlainName name) (h : fs.makeDirectory names = .ok made) :
    fs.look? names = none ∧ made.look? names = some .directory ∧ OnlyAt names fs made := by
  have hmade := makeDirectory_ok_at h
  rwa [withoutEnd_eq_self hplain, destination_of_plain hplain, List.nil_append] at hmade

/-! ## A directory with its parents -/

/-- Nothing looks different but some of these places, where there was nothing: there stand
directories now. -/
def OnlyAddsAt (places : List String → Prop) (fs fs' : FileSystem) : Prop :=
  ∀ other, fs'.look? other = fs.look? other ∨
    fs.look? other = none ∧ fs'.look? other = some .directory ∧ places other

namespace OnlyAddsAt

variable {places : List String → Prop} {fs fs' fs'' : FileSystem}

theorem refl (places : List String → Prop) (fs : FileSystem) : OnlyAddsAt places fs fs :=
  fun _ => Or.inl rfl

theorem trans (h : OnlyAddsAt places fs fs') (h' : OnlyAddsAt places fs' fs'') :
    OnlyAddsAt places fs fs'' := by
  intro other
  rcases h' other with hsame' | ⟨hnone', hdirectory', hplace⟩
  · rw [hsame']
    exact h other
  · rcases h other with hsame | ⟨_, hdirectory, _⟩
    · exact Or.inr ⟨hsame ▸ hnone', hdirectory', hplace⟩
    · rw [hdirectory] at hnone'
      cases hnone'

/-- Everywhere but at those places, all looks as before. -/
theorem look?_eq (h : OnlyAddsAt places fs fs') {other : List String} (hnot : ¬ places other) :
    fs'.look? other = fs.look? other :=
  (h other).resolve_right fun ⟨_, _, hplace⟩ => hnot hplace

end OnlyAddsAt

/-- Nothing looks different but places where there was nothing, on the way to `names`: there stand
directories now. -/
def OnlyAdds (names : List String) (fs fs' : FileSystem) : Prop :=
  ∀ other, fs'.look? other = fs.look? other ∨
    fs.look? other = none ∧ fs'.look? other = some .directory ∧ other <+: names

namespace OnlyAdds

variable {names : List String} {fs fs' fs'' : FileSystem}

theorem refl (names : List String) (fs : FileSystem) : OnlyAdds names fs fs :=
  OnlyAddsAt.refl _ fs

theorem trans (h : OnlyAdds names fs fs') (h' : OnlyAdds names fs' fs'') :
    OnlyAdds names fs fs'' :=
  OnlyAddsAt.trans h h'

/-- The way to a place goes on to what is below. -/
theorem mono {names' : List String} (hpre : names <+: names') (h : OnlyAdds names fs fs') :
    OnlyAdds names' fs fs' :=
  fun other => (h other).imp_right fun ⟨hnone, hdirectory, hother⟩ =>
    ⟨hnone, hdirectory, hother.trans hpre⟩

/-- Everywhere but on the way, all looks as before. -/
theorem look?_eq (h : OnlyAdds names fs fs') {other : List String} (hnot : ¬ other <+: names) :
    fs'.look? other = fs.look? other :=
  OnlyAddsAt.look?_eq h hnot

end OnlyAdds

/-- The parent of plain names is what stands before the last. -/
theorem parentNames_eq_dropLast {names : List String} (hplain : ∀ name ∈ names, PlainName name) :
    parentNames names = names.dropLast := by
  cases names with
  | nil => rfl
  | cons first rest =>
    obtain ⟨⟨hfirst, _⟩, hrest⟩ := List.forall_mem_cons.mp hplain
    have hkept : (rest.filter fun name => name ≠ "" ∧ name ≠ ".") = rest := by
      apply List.filter_eq_self.mpr
      intro name hname
      have hname' := hrest name hname
      simpa using ⟨hname'.1, hname'.2.1⟩
    rw [parentNames, hkept, if_neg hfirst]

theorem onlyAdds_of_makeDirectory {fs made : FileSystem} {names : List String}
    (hplain : ∀ name ∈ names, PlainName name) (h : fs.makeDirectory names = .ok made) :
    OnlyAdds names fs made := by
  obtain ⟨hnone, hdirectory, honly⟩ := makeDirectory_ok hplain h
  intro other
  by_cases hother : other = names
  · rw [hother]
    exact Or.inr ⟨hnone, hdirectory, List.prefix_refl names⟩
  · exact Or.inl (honly other hother)

theorem plain_parentNames {names : List String} (hplain : ∀ name ∈ names, PlainName name) :
    ∀ name ∈ parentNames names, PlainName name := by
  rw [parentNames_eq_dropLast hplain]
  exact fun name hname => hplain name (List.mem_of_mem_dropLast hname)

/-- The way to the parent is on the way to a place. -/
theorem parentNames_on_way {names : List String} (hplain : ∀ name ∈ names, PlainName name) :
    parentNames names <+: names := by
  rw [parentNames_eq_dropLast hplain]
  exact List.dropLast_prefix names

/-- What holds between a file system and the same one with one more directory, and is kept when
several are made, holds between it and what is left of it when a directory is made with its parents,
whether or not that succeeds. The induction is on the parents, which are made first; `P` says which
directories are made. -/
theorem makeDirectories_induction_of {R : FileSystem → FileSystem → Prop} (hrefl : ∀ fs, R fs fs)
    (htrans : ∀ fs fs' fs'', R fs fs' → R fs' fs'' → R fs fs'') {P : List String → Prop}
    (hup : ∀ names, P names → P (parentNames names))
    (hstep : ∀ fs made names, P names → fs.makeDirectory names = .ok made → R fs made)
    (fs : FileSystem) {names : List String} (hnames : P names) :
    R fs (fs.makeDirectories names).2 := by
  fun_induction fs.makeDirectories names with
  | case1 names h => exact hrefl fs
  | case2 names h made hmade => exact hstep fs made names hnames hmade
  | case3 names h hnone hlt error parents hresult ih =>
    have hmade := ih (hup names hnames)
    rwa [hresult] at hmade
  | case4 names h hnone hlt parents hresult made hmade ih =>
    have hbefore := ih (hup names hnames)
    rw [hresult] at hbefore
    exact htrans _ _ _ hbefore (hstep parents made names hnames hmade)
  | case5 names h hnone hlt parents hresult error herror ih =>
    have hmade := ih (hup names hnames)
    rwa [hresult] at hmade
  | case6 names h error hnot herror => exact hrefl fs

/-- With plain names, the directories that are made are on the way. -/
theorem makeDirectories_induction {R : FileSystem → FileSystem → Prop} (hrefl : ∀ fs, R fs fs)
    (htrans : ∀ fs fs' fs'', R fs fs' → R fs' fs'' → R fs fs'') {way : List String}
    (hplain : ∀ name ∈ way, PlainName name)
    (hstep : ∀ fs made names, names <+: way → fs.makeDirectory names = .ok made → R fs made)
    (fs : FileSystem) {names : List String} (hnames : names <+: way) :
    R fs (fs.makeDirectories names).2 := by
  have hup : ∀ names, names <+: way → parentNames names <+: way := fun names hnames =>
    (parentNames_on_way fun name hname => hplain name (hnames.subset hname)).trans hnames
  exact makeDirectories_induction_of hrefl htrans hup hstep fs hnames

/-- Making a directory with its parents only adds directories on the way, whether or not it
succeeds. -/
theorem onlyAdds_makeDirectories (fs : FileSystem) {names : List String}
    (hplain : ∀ name ∈ names, PlainName name) :
    OnlyAdds names fs (fs.makeDirectories names).2 := by
  refine makeDirectories_induction (OnlyAdds.refl names) (fun _ _ _ => OnlyAdds.trans) hplain
    (fun fs made way hway hmade => ?_) fs (List.prefix_refl names)
  exact (onlyAdds_of_makeDirectory (fun name hname => hplain name (hway.subset hname)) hmade).mono
    hway

/-- A file is placed by making its directory and writing it there. -/
theorem place_ok {fs fs' : FileSystem} {path : String} {bytes : List UInt8} {time : Time}
    (hpath : PlainPath path) (h : fs.place path bytes time = .ok fs') :
    ∃ made, OnlyAdds (names path).dropLast fs made ∧ made.write path bytes time = .ok fs' := by
  have hadds := onlyAdds_makeDirectories fs (plain_parentNames hpath)
  rw [parentNames_eq_dropLast hpath] at hadds
  unfold place at h
  rw [parentNames_eq_dropLast hpath] at h
  split at h
  · cases h
  · rename_i made hmade
    rw [hmade] at hadds
    exact ⟨made, hadds, h⟩

end TabMarkup.FileSystem
