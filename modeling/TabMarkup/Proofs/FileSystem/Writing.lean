import TabMarkup.Proofs.FileSystem.Access
import TabMarkup.Proofs.FileSystem.Times

/-!
# What a path is good for

What is found at a plain path, and whether a file can be written there, is decided by what can be
seen along its names: whether they can be followed, and what stands at their end. The bytes and the
time of what is written do not matter.
-/

namespace TabMarkup.FileSystem

/-- What is seen of an entry, with its time. -/
def Entry.status (entry : Entry) : Kind × Option Time :=
  (entry.kind, entry.time?)

variable {fs fs' : FileSystem} {path : String} {bytes : List UInt8} {time : Time}

/-- What is found at a plain path is seen at the address of its names. -/
theorem status_of_stat {entry : Entry} (hpath : PlainPath path) (h : fs.stat path = .ok entry) :
    fs.look? (names path) = some entry.kind ∧ fs.changed? (names path) = entry.time? := by
  obtain ⟨trail, hlocate, hentry⟩ := stat_eq_ok.mp h
  refine ⟨look?_of_stat hpath h, ?_⟩
  rw [← address_of_locate hpath hlocate, changed?_address (hasTrail_of_locate hlocate), hentry]
  rfl

theorem stat_eq_error_iff_map {error : FileError} :
    fs.stat path = .error error ↔ (fs.stat path).map (fun _ => ()) = .error error := by
  cases fs.stat path with
  | error error' => simp [Except.map]
  | ok entry => simp [Except.map]

/-- A plain path leads to nothing for the reason for which its names cannot be followed. -/
theorem stat_eq_error_iff (hpath : PlainPath path) {error : FileError} :
    fs.stat path = .error error ↔ fs.access (names path) = .error error := by
  rw [stat_eq_error_iff_map, stat_access fs hpath]

theorem exists_stat_of_access (hpath : PlainPath path)
    (h : fs.access (names path) = .ok ()) : ∃ entry, fs.stat path = .ok entry := by
  rw [← stat_access fs hpath] at h
  cases hstat : fs.stat path with
  | error error =>
    rw [hstat] at h
    cases h
  | ok entry => exact ⟨entry, rfl⟩

/-- At a plain path that is followed alike and leads to what looks alike, the same is found. -/
theorem stat_congr (hpath : PlainPath path)
    (haccess : fs'.access (names path) = fs.access (names path))
    (hlook : fs'.look? (names path) = fs.look? (names path))
    (hchanged : fs'.changed? (names path) = fs.changed? (names path)) :
    (fs'.stat path).map Entry.status = (fs.stat path).map Entry.status := by
  rw [← stat_access fs hpath, ← stat_access fs' hpath] at haccess
  cases hstat : fs.stat path with
  | error error =>
    cases hstat' : fs'.stat path with
    | error error' =>
      rw [hstat, hstat'] at haccess
      cases haccess
      rfl
    | ok entry' =>
      rw [hstat, hstat'] at haccess
      cases haccess
  | ok entry =>
    cases hstat' : fs'.stat path with
    | error error' =>
      rw [hstat, hstat'] at haccess
      cases haccess
    | ok entry' =>
      obtain ⟨hkind, htime⟩ := status_of_stat hpath hstat
      obtain ⟨hkind', htime'⟩ := status_of_stat hpath hstat'
      rw [hlook, hkind] at hkind'
      rw [hchanged, htime] at htime'
      have hsame : entry'.status = entry.status :=
        Prod.ext (Option.some.inj hkind').symm htime'.symm
      exact congrArg Except.ok hsame

/-! ## Writing -/

/-- Where a path leads, a file can be written unless a directory stands there. -/
theorem write_of_locate {trail : Trail} (h : fs.locate path = .ok trail) (bytes : List UInt8)
    (time : Time) :
    (∃ fs', fs.write path bytes time = .ok fs') ∧ fs.look? (address trail) ≠ some .directory ∨
      fs.write path bytes time = .error .isDirectory ∧
        fs.look? (address trail) = some .directory := by
  rw [look?_address (hasTrail_of_locate h), write, h]
  simp only [Bind.bind, Except.bind]
  cases trail with
  | nil =>
    cases htop : fs.entry? [] with
    | none => cases htop
    | some entry => cases entry <;> simp [htop, Entry.kind]
  | cons step trail =>
    obtain ⟨name, entry?⟩ := step
    cases entry? with
    | none => simp [ entry?]
    | some entry => cases entry <;> simp [ entry?, Entry.kind]

/-- What may be written once may be written with other bytes and another time. -/
theorem exists_write_of_write (h : fs.write path bytes time = .ok fs') (bytes' : List UInt8)
    (time' : Time) : ∃ written, fs.write path bytes' time' = .ok written := by
  obtain ⟨trail, hlocate, hnot, _⟩ := write_ok h
  rcases write_of_locate hlocate bytes' time' with ⟨hwrite, _⟩ | ⟨_, hdirectory⟩
  · exact hwrite
  · exact absurd hdirectory hnot

/-- Where a file stands, another one can be written. -/
theorem exists_write_of_file (h : fs.stat path = .ok (.file bytes time)) (bytes' : List UInt8)
    (time' : Time) : ∃ written, fs.write path bytes' time' = .ok written := by
  obtain ⟨trail, hlocate, hentry⟩ := stat_eq_ok.mp h
  have hlook := look?_address (hasTrail_of_locate hlocate)
  rw [hentry] at hlook
  rcases write_of_locate hlocate bytes' time' with ⟨hwrite, _⟩ | ⟨_, hdirectory⟩
  · exact hwrite
  · rw [hlook] at hdirectory
    cases hdirectory

/-- Why no file can be written under plain names, in a directory that is there. -/
def writeRefusal? (fs : FileSystem) (names : List String) : Option FileError :=
  match fs.access names with
  | .error .notFound => none
  | .error error => some error
  | .ok () => if fs.look? names = some .directory then some .isDirectory else none

theorem locate_of_access {error : FileError} (hpath : PlainPath path)
    (h : fs.access (names path) = .error error) (hnot : error ≠ .notFound) :
    fs.locate path = .error error := by
  rw [access_eq_follow hpath (names_ne_nil path)] at h
  rw [locate]
  cases hfollow : fs.follow (names path) with
  | error error' =>
    rw [hfollow] at h
    cases h
    rfl
  | ok trail =>
    rw [hfollow] at h
    change fs.arrive trail = _ at h
    unfold arrive at h
    split at h
    · cases h
      exact absurd rfl hnot
    · cases h

/-- Walking on is walking the rest from where the first names lead. -/
theorem walk_append (fs : FileSystem) (trail : Trail) (names rest : List String) :
    fs.walk trail (names ++ rest) = fs.walk trail names >>= fun trail' => fs.walk trail' rest := by
  induction names generalizing trail with
  | nil => rfl
  | cons name names ih =>
    rw [List.cons_append, walk, walk]
    cases fs.entry? trail with
    | none => rfl
    | some entry =>
      cases entry with
      | file bytes time => rfl
      | directory time? contents =>
        dsimp only
        split
        · exact ih _
        · split
          · exact ih _
          · split
            · rfl
            · exact ih _

/-- In a directory that is there, a path leads to the place of a file that is only missing. -/
theorem locate_of_access_notFound (hpath : PlainPath path)
    (hdirectory : fs.look? (names path).dropLast = some .directory)
    (h : fs.access (names path) = .error .notFound) : ∃ trail, fs.locate path = .ok trail := by
  have hsize := pathSize_le_of_access_notFound h
  have hlocate : fs.locate path = fs.walk [] (names path) := by
    rw [locate, follow, if_neg (not_empty_of_plain hpath (names_ne_nil path)),
      if_neg (Nat.not_lt_of_le hsize)]
  rw [access, if_neg (Nat.not_lt_of_le hsize)] at h
  obtain ⟨dir, name, hnames⟩ :=
    List.eq_nil_or_concat' (names path) |>.resolve_left (names_ne_nil path)
  unfold PlainPath at hpath
  rw [hnames] at hpath h hdirectory
  obtain ⟨hdir, hname⟩ := List.forall_mem_append.mp hpath
  obtain ⟨hempty, hdot, hdots⟩ : PlainName name := hname name List.mem_cons_self
  rw [List.dropLast_concat] at hdirectory
  rw [reach_append, List.nil_append] at h
  rw [hlocate, hnames, walk_append]
  have hreach := reach_eq_walk fs.hasTrail_nil hdir
  change fs.reach [] dir = _ at hreach
  cases hwalk : fs.walk [] dir with
  | error error =>
    rw [hwalk] at hreach
    rw [hreach] at h
    cases h
    have hnone : fs.look? dir = none := look?_of_reach_notFound hreach
    rw [hnone] at hdirectory
    cases hdirectory
  | ok parent =>
    have haddress : address parent = dir := address_walk hdir hwalk
    have hlook := look?_address (HasTrail.walk fs.hasTrail_nil hwalk)
    rw [haddress, hdirectory] at hlook
    obtain ⟨entry, hentry, hkind⟩ := Option.map_eq_some_iff.mp hlook.symm
    obtain ⟨time?, contents, rfl⟩ := Entry.eq_directory_of_kind hkind
    have hfound : fs.reach [] dir = .ok () := by
      rw [hreach, hwalk]
      change fs.arrive parent = _
      rw [arrive, hentry]
    have hlimit : ¬ nameLimit < name.utf8ByteSize := by
      intro hlong
      rw [hfound] at h
      change fs.reach dir [name] = _ at h
      rw [reach_of_tooLong hdirectory hlong] at h
      cases h
    refine ⟨_, walk_cons_eq_ok.mpr ⟨time?, contents, hentry, Or.inr (Or.inr ⟨?_, hdots, ?_, rfl⟩)⟩⟩
    · simp [hempty, hdot]
    · exact Nat.le_of_not_lt hlimit

/-- In a directory that is there, a file is written unless there is a reason to refuse it. -/
theorem write_of_refusal (hpath : PlainPath path)
    (hdirectory : fs.look? (names path).dropLast = some .directory) (bytes : List UInt8)
    (time : Time) :
    (∃ error, fs.writeRefusal? (names path) = some error ∧
        fs.write path bytes time = .error error) ∨
      fs.writeRefusal? (names path) = none ∧ ∃ fs', fs.write path bytes time = .ok fs' := by
  unfold writeRefusal?
  cases haccess : fs.access (names path) with
  | error error =>
    by_cases hmissing : error = .notFound
    · right
      subst hmissing
      obtain ⟨trail, hlocate⟩ := locate_of_access_notFound hpath hdirectory haccess
      have hnone : fs.look? (names path) = none := by
        rw [access, if_neg (Nat.not_lt_of_le (pathSize_le_of_access_notFound haccess))] at haccess
        exact look?_of_reach_notFound haccess
      rw [← address_of_locate hpath hlocate] at hnone
      rcases write_of_locate hlocate bytes time with ⟨hwrite, _⟩ | ⟨_, hdirectory'⟩
      · exact ⟨rfl, hwrite⟩
      · rw [hnone] at hdirectory'
        cases hdirectory'
    · left
      have hlocate := locate_of_access hpath haccess hmissing
      refine ⟨error, ?_, ?_⟩
      · cases error with
        | notFound => exact absurd rfl hmissing
        | _ => rfl
      · rw [write, hlocate]
        rfl
  | ok found =>
    obtain ⟨entry, hstat⟩ := exists_stat_of_access hpath haccess
    obtain ⟨trail, hlocate, _⟩ := stat_eq_ok.mp hstat
    have haddress := address_of_locate hpath hlocate
    rcases write_of_locate hlocate bytes time with ⟨hwrite, hnot⟩ | ⟨hwrite, hdirectory'⟩
    · rw [haddress] at hnot
      exact Or.inr ⟨if_neg hnot, hwrite⟩
    · rw [haddress] at hdirectory'
      exact Or.inl ⟨.isDirectory, if_pos hdirectory', hwrite⟩

end TabMarkup.FileSystem
