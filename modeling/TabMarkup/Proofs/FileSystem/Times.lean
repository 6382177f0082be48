import TabMarkup.Proofs.FileSystem.Directories

/-!
# When things were changed

The time of what stands at an address, where it is known. Making something new makes the time of
the directory around it unknown, and writing a file gives it another time; no other time changes.
-/

namespace TabMarkup.FileSystem

/-- When what stands below an entry, along some names, was last changed. -/
def Entry.changed? : Entry → List String → Option Time
  | entry, [] => entry.time?
  | .file .., _ :: _ => none
  | .directory _ contents, name :: names =>
    (contents.get? name).bind fun entry => entry.changed? names

@[simp] theorem Entry.changed?_nil (entry : Entry) : entry.changed? [] = entry.time? := by
  cases entry <;> rfl

/-- When what stands at an address was last changed. -/
def changed? (fs : FileSystem) (address : List String) : Option Time :=
  fs.top.changed? address

/-- What is known from the end of a trail is known from the top. -/
theorem changed?_address_append {fs : FileSystem} {trail : Trail} (h : fs.HasTrail trail)
    (names : List String) :
    fs.changed? (address trail ++ names) =
      (fs.entry? trail).bind fun entry => entry.changed? names := by
  induction trail generalizing names with
  | nil => rfl
  | cons step trail ih =>
    obtain ⟨name, entry?⟩ := step
    obtain ⟨htrail, time?, contents, hparent, rfl⟩ := h
    rw [address, List.append_assoc, ih htrail, hparent]
    rfl

theorem changed?_address {fs : FileSystem} {trail : Trail} (h : fs.HasTrail trail) :
    fs.changed? (address trail) = (fs.entry? trail).bind Entry.time? := by
  have hchanged := changed?_address_append h []
  rw [List.append_nil] at hchanged
  rw [hchanged]
  cases fs.entry? trail <;> simp

theorem Entry.look?_of_changed? {entry : Entry} {names : List String} {time : Time}
    (h : entry.changed? names = some time) : ∃ kind, entry.look? names = some kind := by
  induction names generalizing entry with
  | nil => exact ⟨entry.kind, Entry.look?_nil entry⟩
  | cons name names ih =>
    cases entry with
    | file bytes time' => cases h
    | directory time? contents =>
      rw [Entry.changed?] at h
      obtain ⟨next, hnext, h⟩ := Option.bind_eq_some_iff.mp h
      rw [Entry.look?, hnext]
      exact ih h

/-- Where something was changed, something stands. -/
theorem look?_of_changed? {fs : FileSystem} {address : List String} {time : Time}
    (h : fs.changed? address = some time) : ∃ kind, fs.look? address = some kind :=
  Entry.look?_of_changed? h

/-! ## Changing what stands at the end of a trail -/

theorem changed?_put_append {fs : FileSystem} {trail : Trail} (h : fs.HasTrail trail)
    (entry : Entry) (names : List String) :
    (fs.put trail entry).changed? (address trail ++ names) = entry.changed? names := by
  induction trail generalizing entry names with
  | nil => rfl
  | cons step trail ih =>
    obtain ⟨name, entry?⟩ := step
    obtain ⟨htrail, time?, contents, hparent, rfl⟩ := h
    rw [put, hparent, address, List.append_assoc]
    dsimp only
    rw [ih htrail]
    simp [Entry.changed?, Table.get?_insert]

/-- A directory with another entry under one name has the same times elsewhere, and its own time
unless it is given another, if putting it where it stands changes no time elsewhere. -/
theorem changed?_put_directory_of {fs : FileSystem} {trail : Trail} (h : fs.HasTrail trail)
    (helsewhere : ∀ entry names, ¬ address trail <+: names →
      (fs.put trail entry).changed? names = fs.changed? names)
    {time? time'? : Option Time} {contents : Table Entry} {name : String} (entry : Entry)
    (hentry : fs.entry? trail = some (.directory time? contents)) {names : List String}
    (hnot : ¬ address trail ++ [name] <+: names) (htime : time'? = time? ∨ names ≠ address trail) :
    (fs.put trail (.directory time'? (contents.insert name entry))).changed? names =
      fs.changed? names := by
  by_cases hbelow : address trail <+: names
  · obtain ⟨rest, rfl⟩ := hbelow
    rw [changed?_put_append h, changed?_address_append h, hentry]
    cases rest with
    | nil =>
      rcases htime with rfl | hne
      · rfl
      · exact absurd (List.append_nil _) hne
    | cons other rest =>
      have hother : other ≠ name := by
        rintro rfl
        exact hnot ⟨rest, by simp⟩
      simp [Entry.changed?, Table.get?_insert, hother]
  · exact helsewhere _ _ hbelow

/-- What is put at the end of a trail changes no time elsewhere. -/
theorem changed?_put_elsewhere {fs : FileSystem} {trail : Trail} (h : fs.HasTrail trail)
    (entry : Entry) (names : List String) (hnot : ¬ address trail <+: names) :
    (fs.put trail entry).changed? names = fs.changed? names := by
  induction trail generalizing entry names with
  | nil => exact absurd List.nil_prefix hnot
  | cons step trail ih =>
    obtain ⟨name, entry?⟩ := step
    obtain ⟨htrail, time?, contents, hparent, rfl⟩ := h
    rw [put, hparent]
    exact changed?_put_directory_of htrail (ih htrail) entry hparent hnot (Or.inl rfl)

/-! ## Operations -/

/-- No time looks different but some on the way to `names`, which are not known any more. -/
def OnlyForgets (names : List String) (fs fs' : FileSystem) : Prop :=
  ∀ other, fs'.changed? other = fs.changed? other ∨
    fs'.changed? other = none ∧ other <+: names

namespace OnlyForgets

variable {names : List String} {fs fs' fs'' : FileSystem}

theorem refl (names : List String) (fs : FileSystem) : OnlyForgets names fs fs :=
  fun _ => Or.inl rfl

theorem trans (h : OnlyForgets names fs fs') (h' : OnlyForgets names fs' fs'') :
    OnlyForgets names fs fs'' := by
  intro other
  rcases h' other with hsame | hforgets
  · rw [hsame]
    exact h other
  · exact Or.inr hforgets

theorem mono {names' : List String} (hpre : names <+: names') (h : OnlyForgets names fs fs') :
    OnlyForgets names' fs fs' :=
  fun other => (h other).imp_right fun ⟨hnone, hother⟩ => ⟨hnone, hother.trans hpre⟩

/-- Everywhere but on the way, the times are as before. -/
theorem changed?_eq (h : OnlyForgets names fs fs') {other : List String}
    (hnot : ¬ other <+: names) : fs'.changed? other = fs.changed? other :=
  (h other).resolve_right fun ⟨_, hpre⟩ => hnot hpre

end OnlyForgets

/-- Something new under a name that has nothing makes the time of the directory unknown. Below the
new entry there is nothing. -/
theorem changed?_make {fs : FileSystem} {trail : Trail} (h : fs.HasTrail trail)
    {time? : Option Time} {contents : Table Entry} {name : String}
    (hentry : fs.entry? trail = some (.directory time? contents))
    (hnone : contents.get? name = none) {entry : Entry}
    (hempty : ∀ rest, rest ≠ [] → entry.changed? rest = none) {names : List String}
    (hnot : names ≠ address trail ++ [name]) :
    (fs.make trail name entry).changed? names = fs.changed? names ∨
      (fs.make trail name entry).changed? names = none ∧ names = address trail := by
  rw [make, hentry]
  dsimp only
  by_cases hhere : names = address trail
  · right
    refine ⟨?_, hhere⟩
    have hput := changed?_put_append h (.directory none (contents.insert name entry)) []
    rwa [List.append_nil, ← hhere] at hput
  left
  by_cases hbelow : address trail ++ [name] <+: names
  · obtain ⟨rest, rfl⟩ := hbelow
    have hrest : rest ≠ [] := by
      rintro rfl
      exact hnot (List.append_nil _)
    rw [List.append_assoc, changed?_put_append h, changed?_address_append h, hentry]
    simp [Entry.changed?, Table.get?_insert, hnone, hempty rest hrest]
  · exact changed?_put_directory_of h (changed?_put_elsewhere h) entry hentry hbelow
      (Or.inr hhere)

theorem onlyForgets_of_makeDirectory {fs made : FileSystem} {names : List String}
    (hplain : ∀ name ∈ names, PlainName name) (h : fs.makeDirectory names = .ok made) :
    OnlyForgets names fs made := by
  obtain ⟨parent, name, time?, contents, hparent, rfl, hentry, hnone, rfl⟩ :=
    exists_of_makeDirectory hplain h
  have hempty : ∀ rest, rest ≠ [] → Entry.emptyDirectory.changed? rest = none := by
    intro rest hrest
    obtain ⟨other, rest, rfl⟩ := List.exists_cons_of_ne_nil hrest
    rfl
  intro other
  by_cases hhere : other = address parent ++ [name]
  · right
    have hmade := changed?_put_append hparent
      (.directory none (contents.insert name .emptyDirectory)) [name]
    rw [make, hentry, hhere]
    refine ⟨hmade.trans ?_, List.prefix_refl _⟩
    simp [Entry.changed?, Table.get?_insert, Entry.emptyDirectory, Entry.time?]
  · rcases changed?_make hparent hentry hnone hempty hhere with hsame | ⟨hforgets, rfl⟩
    · exact Or.inl hsame
    · exact Or.inr ⟨hforgets, List.prefix_append _ _⟩

/-- Making a directory with its parents only makes times on the way unknown. -/
theorem onlyForgets_makeDirectories (fs : FileSystem) {names : List String}
    (hplain : ∀ name ∈ names, PlainName name) :
    OnlyForgets names fs (fs.makeDirectories names).2 := by
  refine makeDirectories_induction (OnlyForgets.refl names) (fun _ _ _ => OnlyForgets.trans) hplain
    (fun fs made way hway hmade => ?_) fs (List.prefix_refl names)
  have hplain' : ∀ name ∈ way, PlainName name := fun name hname => hplain name (hway.subset hname)
  exact (onlyForgets_of_makeDirectory hplain' hmade).mono hway

/-- Writing a file gives it a time, and makes at most the time of the directory around it
unknown. -/
theorem changed?_of_write {fs fs' : FileSystem} {path : String} {bytes : List UInt8} {time : Time}
    {trail : Trail} (h : fs.write path bytes time = .ok fs') (hlocate : fs.locate path = .ok trail)
    {names : List String} (hnot : names ≠ address trail) :
    fs'.changed? names = fs.changed? names ∨
      fs'.changed? names = none ∧ names <+: address trail := by
  obtain ⟨trail', hlocate', hcases⟩ := exists_of_write h
  obtain rfl : trail' = trail := by
    rw [hlocate] at hlocate'
    cases hlocate'
    rfl
  have htrail := hasTrail_of_locate hlocate
  have hfile : ∀ rest, rest ≠ [] → (Entry.file bytes time).changed? rest = none := by
    intro rest hrest
    obtain ⟨other, rest, rfl⟩ := List.exists_cons_of_ne_nil hrest
    rfl
  rcases hcases with ⟨name, parent, rfl, rfl⟩ | ⟨⟨bytes', time', hentry⟩, rfl⟩
  · obtain ⟨hparent, time?, contents, hentry, hnone⟩ := htrail
    rcases changed?_make hparent hentry hnone.symm hfile hnot with hsame | ⟨hforgets, rfl⟩
    · exact Or.inl hsame
    · exact Or.inr ⟨hforgets, List.prefix_append _ _⟩
  · left
    by_cases hbelow : address trail' <+: names
    · obtain ⟨rest, rfl⟩ := hbelow
      have hrest : rest ≠ [] := by
        rintro rfl
        exact hnot (List.append_nil _)
      rw [changed?_put_append htrail, changed?_address_append htrail, hentry, hfile rest hrest]
      obtain ⟨other, rest, rfl⟩ := List.exists_cons_of_ne_nil hrest
      rfl
    · exact changed?_put_elsewhere htrail _ _ hbelow

end TabMarkup.FileSystem
