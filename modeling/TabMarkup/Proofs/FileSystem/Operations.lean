import TabMarkup.FileSystem.Directories
import TabMarkup.Proofs.FileSystem.Look

/-!
# What operations on files change

Each operation, where it succeeds, in terms of what can be seen: the one address at which something
else is seen afterwards, and that everything else looks as before. Making directories only adds
directories on the way to the one that is asked for.
-/

namespace TabMarkup.FileSystem

/-- After a first part that is refused, nothing is done. -/
theorem bind_eq_ok {α β : Type} {m : Except FileError α} {f : α → Except FileError β} {b : β} :
    (m >>= f) = .ok b ↔ ∃ a, m = .ok a ∧ f a = .ok b := by
  cases m <;> simp [Bind.bind, Except.bind]

/-- A refusal comes from the first part, or from what is done after it. -/
theorem bind_eq_error {α β : Type} {m : Except FileError α} {f : α → Except FileError β}
    {error : FileError} :
    (m >>= f) = .error error ↔ m = .error error ∨ ∃ a, m = .ok a ∧ f a = .error error := by
  cases m <;> simp [Bind.bind, Except.bind]

/-! ## Following paths -/

/-- A path whose names are followed as they are. -/
def PlainPath (path : String) : Prop :=
  ∀ name ∈ names path, PlainName name

instance (path : String) : Decidable (PlainPath path) :=
  inferInstanceAs (Decidable (∀ name ∈ names path, PlainName name))

theorem locate_eq_ok {fs : FileSystem} {path : String} {trail : Trail} :
    fs.locate path = .ok trail ↔ ¬ (names path = [] ∨ names path = [""]) ∧
      ¬ pathLimit < pathSize (names path) ∧ fs.walk [] (names path) = .ok trail := by
  unfold locate follow
  split
  · simp_all
  split
  · simp_all
  · simp_all

theorem hasTrail_of_locate {fs : FileSystem} {path : String} {trail : Trail}
    (h : fs.locate path = .ok trail) : fs.HasTrail trail :=
  HasTrail.walk fs.hasTrail_nil (locate_eq_ok.mp h).2.2

/-- A plain path leads to the address that its names make. -/
theorem address_of_locate {fs : FileSystem} {path : String} {trail : Trail}
    (hpath : PlainPath path) (h : fs.locate path = .ok trail) : address trail = names path :=
  address_walk hpath (locate_eq_ok.mp h).2.2

/-- Where all directories are kept, a path leads to the same address as before. -/
theorem locate_of_directories {fs fs' : FileSystem}
    (hkept : ∀ address, fs.look? address = some .directory → fs'.look? address = some .directory)
    {path : String} {trail : Trail} (h : fs.locate path = .ok trail) :
    ∃ trail', fs'.locate path = .ok trail' ∧ address trail' = address trail := by
  obtain ⟨hne, hlimit, hwalk⟩ := locate_eq_ok.mp h
  obtain ⟨trail', hwalk', haddress⟩ :=
    walk_of_directories hkept fs.hasTrail_nil fs'.hasTrail_nil rfl hwalk
  exact ⟨trail', locate_eq_ok.mpr ⟨hne, hlimit, hwalk'⟩, haddress⟩

theorem stat_eq_ok {fs : FileSystem} {path : String} {entry : Entry} :
    fs.stat path = .ok entry ↔
      ∃ trail, fs.locate path = .ok trail ∧ fs.entry? trail = some entry := by
  unfold stat
  rw [bind_eq_ok]
  refine exists_congr fun trail => and_congr_right fun _ => ?_
  cases fs.entry? trail <;> simp

/-- What stands where a plain path leads is seen at the address of its names. -/
theorem look?_of_stat {fs : FileSystem} {path : String} {entry : Entry} (hpath : PlainPath path)
    (h : fs.stat path = .ok entry) : fs.look? (names path) = some entry.kind := by
  obtain ⟨trail, hlocate, hentry⟩ := stat_eq_ok.mp h
  rw [← address_of_locate hpath hlocate, look?_address (hasTrail_of_locate hlocate), hentry]
  rfl

/-- The file that is seen at the end of a path is what stands there. -/
theorem stat_of_look? {fs : FileSystem} {path : String} {trail : Trail} {bytes : List UInt8}
    {time : Time} (h : fs.locate path = .ok trail)
    (hlook : fs.look? (address trail) = some (.file bytes time)) :
    fs.stat path = .ok (.file bytes time) := by
  rw [look?_address (hasTrail_of_locate h)] at hlook
  obtain ⟨entry, hentry, hkind⟩ := Option.map_eq_some_iff.mp hlook
  rw [Entry.eq_file_of_kind hkind] at hentry
  exact stat_eq_ok.mpr ⟨trail, h, hentry⟩

/-! ## Files -/

/-- The place at `address` looks different, and everything else as before. -/
def OnlyAt (address : List String) (fs fs' : FileSystem) : Prop :=
  ∀ other, other ≠ address → fs'.look? other = fs.look? other

/-- A file where there was none or another one changes nothing else: there is nothing below it,
and was nothing below its place. -/
theorem onlyAt_of_file {fs fs' : FileSystem} {trail : Trail} {bytes : List UInt8} {time : Time}
    (h : fs.HasTrail trail) (hnot : fs.look? (address trail) ≠ some .directory)
    (hbelow : ∀ rest, fs'.look? (address trail ++ rest) = (Entry.file bytes time).look? rest)
    (helsewhere : ∀ names, ¬ address trail <+: names → fs'.look? names = fs.look? names) :
    fs'.look? (address trail) = some (.file bytes time) ∧ OnlyAt (address trail) fs fs' := by
  constructor
  · have hhere := hbelow []
    rwa [List.append_nil] at hhere
  · intro other hother
    by_cases hpre : address trail <+: other
    · obtain ⟨rest, rfl⟩ := hpre
      have hrest : rest ≠ [] := by
        rintro rfl
        exact hother (List.append_nil _)
      rw [hbelow, look?_below h hnot hrest]
      obtain ⟨name, rest, rfl⟩ := List.exists_cons_of_ne_nil hrest
      rfl
    · exact helsewhere other hpre

/-- A write makes a new file where the path leads to nothing, or puts another one in the place of a
file. -/
theorem exists_of_write {fs fs' : FileSystem} {path : String} {bytes : List UInt8} {time : Time}
    (h : fs.write path bytes time = .ok fs') :
    ∃ trail, fs.locate path = .ok trail ∧
      ((∃ name parent, trail = (name, none) :: parent ∧
        fs' = fs.make parent name (.file bytes time)) ∨
      ((∃ bytes' time', fs.entry? trail = some (.file bytes' time')) ∧
        fs' = fs.put trail (.file bytes time))) := by
  obtain ⟨trail, hlocate, h⟩ := bind_eq_ok.mp h
  refine ⟨trail, hlocate, ?_⟩
  split at h
  · cases h
    exact Or.inl ⟨_, _, rfl, rfl⟩
  · split at h
    · rename_i hentry
      cases h
      exact Or.inr ⟨⟨_, _, hentry⟩, rfl⟩
    · cases h

/-- Writing puts a file at the end of the path, where no directory was. -/
theorem write_ok {fs fs' : FileSystem} {path : String} {bytes : List UInt8} {time : Time}
    (h : fs.write path bytes time = .ok fs') :
    ∃ trail, fs.locate path = .ok trail ∧ fs.look? (address trail) ≠ some .directory ∧
      fs'.look? (address trail) = some (.file bytes time) ∧ OnlyAt (address trail) fs fs' := by
  obtain ⟨trail, hlocate, hcases⟩ := exists_of_write h
  have htrail := hasTrail_of_locate hlocate
  refine ⟨trail, hlocate, ?_⟩
  rcases hcases with ⟨name, parent, rfl, rfl⟩ | ⟨⟨bytes', time', hentry⟩, rfl⟩
  · have hnot : fs.look? (address ((name, none) :: parent)) ≠ some .directory := by
      rw [look?_address htrail]
      simp [ entry?]
    have ⟨hparent, time?, contents, hentry, _⟩ := htrail
    obtain ⟨hbelow, helsewhere⟩ := look?_make hparent hentry name (.file bytes time)
    refine ⟨hnot, onlyAt_of_file htrail hnot (fun rest => ?_) helsewhere⟩
    rw [address, List.append_assoc]
    exact hbelow rest
  · have hnot : fs.look? (address trail) ≠ some .directory := by
      rw [look?_address htrail, hentry]
      simp [Entry.kind]
    exact ⟨hnot, onlyAt_of_file htrail hnot (look?_put_append htrail _)
      (look?_put_elsewhere htrail _)⟩

/-- What was written stands where the path leads. -/
theorem stat_of_write {fs fs' : FileSystem} {path : String} {bytes : List UInt8} {time : Time}
    (h : fs.write path bytes time = .ok fs') : fs'.stat path = .ok (.file bytes time) := by
  obtain ⟨trail, hlocate, hnot, hfile, honly⟩ := write_ok h
  have hkept : ∀ a, fs.look? a = some .directory → fs'.look? a = some .directory := by
    intro a ha
    by_cases hhere : a = address trail
    · rw [hhere] at ha
      exact absurd ha hnot
    · rw [honly a hhere, ha]
  obtain ⟨trail', hlocate', haddress⟩ := locate_of_directories hkept hlocate
  exact stat_of_look? hlocate' (by rw [haddress, hfile])

/-- Setting a time changes nothing but the time of what stands at the end of the path. -/
theorem touch_ok {fs fs' : FileSystem} {path : String} {time : Time}
    (h : fs.touch path time = .ok fs') :
    ∃ trail entry, fs.locate path = .ok trail ∧ fs.look? (address trail) = some entry.kind ∧
      fs'.look? (address trail) = some (Entry.setTime time entry).kind ∧
      OnlyAt (address trail) fs fs' := by
  obtain ⟨trail, hlocate, h⟩ := bind_eq_ok.mp h
  have htrail := hasTrail_of_locate hlocate
  split at h
  · rename_i entry hentry
    cases h
    refine ⟨trail, entry, hlocate, by rw [look?_address htrail, hentry]; rfl, ?_, ?_⟩
    · have hhere := look?_put_append htrail (entry.setTime time) []
      rwa [List.append_nil, Entry.look?_nil] at hhere
    · intro other hother
      by_cases hpre : address trail <+: other
      · obtain ⟨rest, rfl⟩ := hpre
        have hrest : rest ≠ [] := by
          rintro rfl
          exact hother (List.append_nil _)
        obtain ⟨name, rest, rfl⟩ := List.exists_cons_of_ne_nil hrest
        rw [look?_put_append htrail, look?_address_append htrail, hentry]
        cases entry <;> rfl
      · exact look?_put_elsewhere htrail _ _ hpre
  · cases h

/-- What is removed is gone with all that is below it; everything else is as before. -/
theorem remove_ok {fs fs' : FileSystem} {path : String} (h : fs.remove path = .ok fs') :
    ∃ trail, fs.locate path = .ok trail ∧ fs.look? (address trail) ≠ none ∧
      (trail ≠ [] → ∀ rest, fs'.look? (address trail ++ rest) = none) ∧
      ∀ other, ¬ address trail <+: other → fs'.look? other = fs.look? other := by
  obtain ⟨trail, hlocate, h⟩ := bind_eq_ok.mp h
  have htrail := hasTrail_of_locate hlocate
  split at h
  · rename_i entry hentry
    cases h
    refine ⟨trail, hlocate, by simp [look?_address htrail, hentry], ?_⟩
    cases trail with
    | nil => exact ⟨fun hne => absurd rfl hne, fun other hnot => absurd List.nil_prefix hnot⟩
    | cons step trail =>
      obtain ⟨name, entry?⟩ := step
      obtain ⟨hgone, helsewhere⟩ := look?_unmake htrail
      refine ⟨fun _ rest => ?_, helsewhere⟩
      rw [address, List.append_assoc]
      exact hgone rest
  · cases h

end TabMarkup.FileSystem
