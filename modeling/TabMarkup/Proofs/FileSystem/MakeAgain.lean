import TabMarkup.Proofs.FileSystem.Entering

/-!
# Making directories again

Making a directory with its parents may stop halfway. Where the path does not go up, making it once
more then stops for the same reason, and where it was made, there is nothing more to make. So the
second time changes nothing and has the same answer (`makeDirectories_again`). A path that goes up
can stop for another reason the second time, since it passes through places that are made first.
-/

namespace TabMarkup.FileSystem

variable {fs fs' : FileSystem} {names : List String} {error : FileError}

/-! ## One directory -/

/-- A directory is not made where the names before its own lead into none. -/
theorem makeDirectory_of_into_error (hsize : ¬ pathLimit < pathSize names)
    (h : fs.into [] (withoutEnd names).dropLast = .error error) :
    fs.makeDirectory names = .error error := by
  simp only [makeDirectory, if_neg hsize]
  rcases bind_eq_error.mp h with hwalk | ⟨parent, hwalk, henter⟩
  · rw [hwalk]
    rfl
  · rw [hwalk]
    simp only [Bind.bind, Except.bind]
    rcases enter_error henter with ⟨rfl, hentry⟩ | ⟨rfl, bytes, time, hentry⟩
    · rw [hentry]
    · rw [hentry]

theorem enter_ne_tooLong {trail : Trail} : fs.enter trail ≠ .error .nameTooLong := by
  intro henter
  rcases enter_error henter with ⟨hnone, _⟩ | ⟨hfile, _⟩
  · cases hnone
  · cases hfile

/-- A name that is too long, on the way to a directory or at its end, keeps it from being made. -/
theorem makeDirectory_of_tooLong (h : fs.into [] names = .error .nameTooLong) :
    fs.makeDirectory names = .error .nameTooLong := by
  by_cases hsize : pathLimit < pathSize names
  · exact if_pos hsize
  rw [← into_steps, ← steps_withoutEnd, into_steps] at h
  rcases List.eq_nil_or_concat' (withoutEnd names) with hnil | ⟨before, name, hsplit⟩
  · rw [hnil] at h
    exact absurd h enter_ne_tooLong
  rw [hsplit, into_append] at h
  rcases bind_eq_error.mp h with hbefore | ⟨parent, hbefore, hlast⟩
  · refine makeDirectory_of_into_error hsize ?_
    rw [hsplit, List.dropLast_concat, hbefore]
  · obtain ⟨hparent, time?, contents, hentry⟩ := into_eq_ok.mp hbefore
    rcases bind_eq_error.mp hlast with hone | ⟨next, _, henter⟩
    · rcases walk_one_error hone with henter | ⟨_, ⟨_, hdot, hup⟩, hlimit⟩
      · exact absurd henter enter_ne_tooLong
      · simp [makeDirectory, hsize, hsplit, hparent, Bind.bind, Except.bind, hentry, hdot, hup,
          hlimit]
    · exact absurd henter enter_ne_tooLong

/-- A directory that was made is found at the end of its path, whatever names are in it. -/
theorem into_of_makeDirectory {made : FileSystem} (h : fs.makeDirectory names = .ok made) :
    ∃ trail, made.into [] names = .ok trail := by
  obtain ⟨before, name, parent, time?, contents, _, hnames, hname, hlimit, hwalk, hentry, _⟩ :=
    exists_walk_of_makeDirectory h
  obtain ⟨hmissing, hdirectory, honly⟩ := makeDirectory_ok_at h
  have hkept : ∀ other, fs.look? other = some .directory → made.look? other = some .directory := by
    intro other hother
    rw [honly other (fun heq => by rw [heq, hmissing] at hother; cases hother), hother]
  have hparent := HasTrail.walk fs.hasTrail_nil hwalk
  obtain ⟨parent', hwalk', haddress⟩ :=
    walk_of_directories hkept fs.hasTrail_nil made.hasTrail_nil rfl hwalk
  have hparent' := HasTrail.walk made.hasTrail_nil hwalk'
  obtain ⟨time'?, contents', hentry'⟩ :=
    directory_of_directories hkept hparent hparent' haddress hentry
  obtain ⟨hempty, hdot, hup⟩ := hname
  have hlast : made.walk parent' [name] = .ok ((name, contents'.get? name) :: parent') :=
    walk_cons_eq_ok.mpr ⟨time'?, contents', hentry', Or.inr (Or.inr
      ⟨by simp [hempty, hdot], hup, hlimit, rfl⟩)⟩
  have hend : made.walk [] (withoutEnd names) = .ok ((name, contents'.get? name) :: parent') := by
    rw [hnames, walk_append, hwalk']
    exact hlast
  have hfound := look?_address (HasTrail.walk made.hasTrail_nil hend)
  rw [address_of_walk hend, address, hdirectory] at hfound
  obtain ⟨entry, hentry'', hkind⟩ := Option.map_eq_some_iff.mp hfound.symm
  obtain ⟨time''?, contents'', rfl⟩ := Entry.eq_directory_of_kind hkind
  refine ⟨(name, contents'.get? name) :: parent', ?_⟩
  rw [← into_steps, ← steps_withoutEnd, into_steps]
  exact into_eq_ok.mpr ⟨hend, _, _, hentry''⟩

/-! ## Directories that are there -/

theorem isDirectory_iff_into :
    fs.isDirectory names = true ↔ ¬ (names = [] ∨ names = [""]) ∧
      ¬ pathLimit < pathSize names ∧ ∃ trail, fs.into [] names = .ok trail := by
  unfold isDirectory follow
  by_cases hne : names = [] ∨ names = [""]
  · simp [hne]
  by_cases hsize : pathLimit < pathSize names
  · simp [hne, hsize]
  rw [if_neg hne, if_neg hsize]
  simp only [hne, hsize, not_false_eq_true, true_and, into]
  cases fs.walk [] names with
  | error error => simp [Bind.bind, Except.bind]
  | ok trail =>
    simp only [Bind.bind, Except.bind, enter]
    cases fs.entry? trail with
    | none => simp
    | some entry => cases entry <;> simp [Entry.isDirectory]

/-- A directory that is there need not be made. -/
theorem makeDirectories_of_isDirectory (h : fs.isDirectory names = true) :
    fs.makeDirectories names = (.ok (), fs) := by
  obtain ⟨hne, hsize, trail, hinto⟩ := isDirectory_iff_into.mp h
  obtain ⟨hwalk, time?, contents, hentry⟩ := into_eq_ok.mp hinto
  obtain ⟨error, hfound, hmake⟩ := makeDirectory_of_walk hsize hwalk hentry
  rw [makeDirectories, dif_neg hne, hmake]
  cases error with
  | notFound => exact absurd rfl hfound
  | _ => exact Prod.ext (if_pos h) rfl

theorem isDirectory_of_directories
    (hkept : ∀ address, fs.look? address = some .directory → fs'.look? address = some .directory)
    (h : fs.isDirectory names = true) : fs'.isDirectory names = true := by
  obtain ⟨hne, hsize, trail, hinto⟩ := isDirectory_iff_into.mp h
  obtain ⟨hwalk, time?, contents, hentry⟩ := into_eq_ok.mp hinto
  obtain ⟨trail', hwalk', haddress⟩ :=
    walk_of_directories hkept fs.hasTrail_nil fs'.hasTrail_nil rfl hwalk
  obtain ⟨time'?, contents', hentry'⟩ := directory_of_directories hkept
    (HasTrail.walk fs.hasTrail_nil hwalk) (HasTrail.walk fs'.hasTrail_nil hwalk') haddress hentry
  exact isDirectory_iff_into.mpr ⟨hne, hsize, trail', into_eq_ok.mpr ⟨hwalk', _, _, hentry'⟩⟩

theorem isDirectory_of_makeDirectory (hne : ¬ (names = [] ∨ names = [""])) {made : FileSystem}
    (h : fs.makeDirectory names = .ok made) : made.isDirectory names = true := by
  obtain ⟨_, _, _, _, _, hsize, _⟩ := exists_walk_of_makeDirectory h
  exact isDirectory_iff_into.mpr ⟨hne, hsize, into_of_makeDirectory h⟩

theorem isDirectory_of_settle (h : fs.settle names error = (.ok (), fs')) :
    fs'.isDirectory names = true := by
  unfold settle at h
  split at h
  · rename_i hdirectory
    cases h
    exact hdirectory
  · cases h

/-- A directory that was made with its parents is there, whatever names are in its path. -/
theorem isDirectory_of_makeDirectories (hne : ¬ (names = [] ∨ names = [""]))
    (h : fs.makeDirectories names = (.ok (), fs')) : fs'.isDirectory names = true := by
  rw [makeDirectories, dif_neg hne] at h
  split at h
  · rename_i made hmade
    cases h
    exact isDirectory_of_makeDirectory hne hmade
  · split at h
    · cases h
    · split at h
      · rename_i made hmade
        cases h
        exact isDirectory_of_makeDirectory hne hmade
      · exact isDirectory_of_settle h
  · exact isDirectory_of_settle h

/-- A directory that was made need not be made where no directory is lost. -/
theorem makeDirectories_of_made
    (hkept : ∀ address, fs.look? address = some .directory → fs'.look? address = some .directory)
    (h : fs.makeDirectories names = (.ok (), fs)) :
    fs'.makeDirectories names = (.ok (), fs') := by
  by_cases hne : names = [] ∨ names = [""]
  · rw [makeDirectories, dif_pos hne]
  · exact makeDirectories_of_isDirectory
      (isDirectory_of_directories hkept (isDirectory_of_makeDirectories hne h))

/-- A name that is too long is the reason also when parents could be made. -/
theorem makeDirectories_of_tooLong (hne : ¬ (names = [] ∨ names = [""]))
    (h : fs.into [] names = .error .nameTooLong) :
    fs.makeDirectories names = (.error .nameTooLong, fs) := by
  have hnot : ¬ fs.isDirectory names = true := by
    intro hdirectory
    obtain ⟨_, _, trail, hinto⟩ := isDirectory_iff_into.mp hdirectory
    rw [h] at hinto
    cases hinto
  rw [makeDirectories, dif_neg hne, makeDirectory_of_tooLong h]
  exact Prod.ext (if_neg hnot) rfl

/-! ## Parents -/

theorem parentNames_sublist (names : List String) : (parentNames names).Sublist names := by
  cases names with
  | nil => exact List.Sublist.refl _
  | cons first rest =>
    refine (List.dropLast_sublist _).trans ?_
    split
    · exact List.filter_sublist.cons first
    · exact List.filter_sublist.cons_cons first

theorem parentNames_neverUp (hup : ".." ∉ names) : ".." ∉ parentNames names :=
  fun hmem => hup ((parentNames_sublist names).subset hmem)

/-- The names that lead to the parent are those that lead to its child, but for the last. -/
theorem steps_parentNames (names : List String) :
    steps (parentNames names) = (steps names).dropLast := by
  cases names with
  | nil => rfl
  | cons first rest =>
    change steps (if first = "" then steps rest else first :: steps rest).dropLast = _
    by_cases hempty : first = ""
    · rw [if_pos hempty, hempty]
      exact steps_dropLast_steps rest
    rw [if_neg hempty]
    by_cases hdot : first = "."
    · have hfirst : steps (first :: rest) = steps rest := by rw [hdot]; rfl
      rw [hfirst, hdot]
      cases hrest : steps rest with
      | nil => rfl
      | cons next after =>
        rw [List.dropLast_cons_of_ne_nil (List.cons_ne_nil next after), ← hrest]
        exact steps_dropLast_steps rest
    · have hfirst : steps (first :: rest) = first :: steps rest :=
        List.filter_cons_of_pos (by simp [hempty, hdot])
      rw [← hfirst]
      exact steps_dropLast_steps (first :: rest)

/-- The way to the parent of a directory is on the way that is followed to make it. -/
theorem steps_parentNames_on_way (names : List String) :
    steps (parentNames names) <+: steps (withoutEnd names).dropLast := by
  rw [steps_parentNames, ← steps_withoutEnd]
  rcases List.eq_nil_or_concat' (withoutEnd names) with hnil | ⟨before, name, hsplit⟩
  · rw [hnil]
    exact List.nil_prefix
  · rw [hsplit, List.dropLast_concat, steps_append]
    by_cases hleads : name ≠ "" ∧ name ≠ "."
    · have hname : steps [name] = [name] := List.filter_cons_of_pos (by simpa using hleads)
      rw [hname, List.dropLast_concat]
    · have hname : steps [name] = [] := List.filter_cons_of_neg (by simpa using hleads)
      rw [hname, List.append_nil]
      exact List.dropLast_prefix _

/-- What keeps the parents of a missing directory from being made keeps it from being made as well,
when it is tried again after what could be made of them. -/
theorem makeDirectories_of_parents (hup : ".." ∉ names)
    (hnone : fs.makeDirectory names = .error .notFound) {parents : FileSystem}
    (hresult : fs.makeDirectories (parentNames names) = (.error error, parents))
    (hagain : parents.makeDirectories (parentNames names) = (.error error, parents)) :
    parents.makeDirectories names = (.error error, parents) := by
  have hsize : ¬ pathLimit < pathSize names := by
    intro hlong
    rw [makeDirectory, if_pos hlong] at hnone
    cases hnone
  have hne : ¬ (parentNames names = [] ∨ parentNames names = [""]) := by
    intro hempty
    rw [makeDirectories, dif_pos hempty] at hagain
    cases hagain
  have hne' : ¬ (names = [] ∨ names = [""]) := by
    rintro (rfl | rfl)
    · exact hne (Or.inl rfl)
    · exact hne (Or.inl rfl)
  have hway := steps_parentNames_on_way names
  have hmake {fs : FileSystem} {error : FileError}
      (h : fs.into [] (parentNames names) = .error error) : fs.makeDirectory names = .error error :=
    makeDirectory_of_into_error hsize (into_error_of_steps hway h)
  cases hinto : parents.into [] (parentNames names) with
  | ok trail =>
    -- The parents would be there, and nothing to refuse.
    have hsize' : ¬ pathLimit < pathSize (parentNames names) := fun hlong =>
      hsize (hlong.trans_le (pathSize_le_of_sublist (parentNames_sublist names)))
    rw [makeDirectories_of_isDirectory (isDirectory_iff_into.mpr ⟨hne, hsize', trail, hinto⟩)]
      at hagain
    cases hagain
  | error reason =>
    rcases into_error hinto with rfl | rfl | rfl
    · rw [makeDirectories, dif_neg hne', hmake hinto]
      dsimp only
      rw [hagain]
    · -- A file on the way was there before.
      have hadds := onlyAddsAt_makeDirectories fs (parentNames names)
      rw [hresult] at hadds
      rw [hmake (into_notDirectory_of_added hadds (parentNames_neverUp hup) hinto)] at hnone
      cases hnone
    · rw [makeDirectories_of_tooLong hne hinto] at hagain
      cases hagain
      have hway' : steps (parentNames names) <+: steps names := by
        rw [steps_parentNames]
        exact List.dropLast_prefix _
      exact makeDirectories_of_tooLong hne' (into_error_of_steps hway' hinto)

/-- Making a directory with its parents, whether or not it succeeds, leaves what making it again
does not change, and makes it again with the same answer. The parents are made first, and so come
first in the induction. -/
theorem makeDirectories_again (fs : FileSystem) (hup : ".." ∉ names) :
    (fs.makeDirectories names).2.makeDirectories names = fs.makeDirectories names := by
  fun_induction fs.makeDirectories names with
  | case1 names h => rw [makeDirectories, dif_pos h]
  | case2 names h made hmade =>
    exact makeDirectories_of_isDirectory (isDirectory_of_makeDirectory h hmade)
  | case3 names h hnone hlt error parents hresult ih =>
    have hagain := ih (parentNames_neverUp hup)
    rw [hresult] at hagain
    exact makeDirectories_of_parents hup hnone hresult hagain
  | case4 names h hnone hlt parents hresult made hmade ih =>
    exact makeDirectories_of_isDirectory (isDirectory_of_makeDirectory h hmade)
  | case5 names h hnone hlt parents hresult error herror ih =>
    have hagain := ih (parentNames_neverUp hup)
    rw [hresult] at hagain
    change parents.makeDirectories names = _
    rw [makeDirectories, dif_neg h, herror]
    cases error with
    | notFound =>
      dsimp only
      rw [hagain]
      dsimp only
      rw [herror]
    | _ => rfl
  | case6 names h error hnot herror =>
    change fs.makeDirectories names = _
    rw [makeDirectories, dif_neg h, herror]
    cases error with
    | notFound => exact absurd rfl hnot
    | _ => rfl

end TabMarkup.FileSystem
