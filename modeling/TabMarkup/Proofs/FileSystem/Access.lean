import TabMarkup.Proofs.FileSystem.Directories
import TabMarkup.Proofs.Text.Cut

/-!
# Whether names lead anywhere

Following plain names fails at the first that leads on from a file or from nothing, or that is too
long, so what can be seen decides whether and how it fails. In these terms a plain path leads to
something or not, and to a directory or not.
-/

namespace TabMarkup.FileSystem

/-! ## Names that fit -/

/-- No name is too long, and neither is the path that they make. -/
def Fits (names : List String) : Prop :=
  pathSize names ≤ pathLimit ∧ ∀ name ∈ names, name.utf8ByteSize ≤ nameLimit

theorem pathSize_cons_cons (name next : String) (names : List String) :
    pathSize (name :: next :: names) = name.utf8ByteSize + 1 + pathSize (next :: names) := by
  have hslash : "/".utf8ByteSize = 1 := by decide
  simp [pathSize, String.intercalate_cons_cons, hslash]

/-- A path gets no longer when names are left out. -/
theorem pathSize_le_of_sublist {names names' : List String} (h : names.Sublist names') :
    pathSize names ≤ pathSize names' := by
  have hcons (name : String) (names : List String) :
      pathSize names ≤ pathSize (name :: names) ∧ name.utf8ByteSize ≤ pathSize (name :: names) := by
    cases names with
    | nil => simp [pathSize]
    | cons next names =>
      rw [pathSize_cons_cons]
      omega
  induction h with
  | slnil => exact Nat.le_refl _
  | @cons names names' name _ ih => exact ih.trans (hcons name names').1
  | @cons_cons names names' name hsub ih =>
    cases names with
    | nil => simpa [pathSize] using (hcons name names').2
    | cons first names =>
      have hne : names' ≠ [] := List.ne_nil_of_mem (hsub.subset List.mem_cons_self)
      obtain ⟨first', rest, rfl⟩ := List.exists_cons_of_ne_nil hne
      rw [pathSize_cons_cons, pathSize_cons_cons]
      omega

/-! ## Following names -/

/-- Below something there is only something if it is a directory. -/
theorem Entry.look?_of_below {entry : Entry} {names rest : List String} {name : String}
    (h : entry.look? (names ++ name :: rest) ≠ none) : entry.look? names = some .directory := by
  induction names generalizing entry with
  | nil =>
    cases entry with
    | file bytes time => exact absurd rfl h
    | directory time? contents => rfl
  | cons first names ih =>
    cases entry with
    | file bytes time => exact absurd rfl h
    | directory time? contents =>
      rw [List.cons_append, Entry.look?] at h
      rw [Entry.look?]
      cases hentry : contents.get? first with
      | none =>
        rw [hentry] at h
        exact absurd rfl h
      | some next =>
        rw [hentry] at h
        exact ih h

/-- Below nothing there is nothing. -/
theorem look?_append_of_none {fs : FileSystem} {names : List String} (h : fs.look? names = none)
    (rest : List String) : fs.look? (names ++ rest) = none := by
  cases rest with
  | nil => rwa [List.append_nil]
  | cons name rest =>
    by_contra hsome
    have hdirectory : fs.look? names = some .directory := Entry.look?_of_below hsome
    rw [hdirectory] at h
    cases h

/-- What stands in a directory has directories all the way to it. -/
theorem look?_of_on_way {fs : FileSystem} {dir before : List String} {name : String} {kind : Kind}
    (h : fs.look? (dir ++ [name]) = some kind) (hway : before <+: dir) :
    fs.look? before = some .directory := by
  obtain ⟨rest, rfl⟩ := hway
  obtain ⟨next, rest', hrest⟩ := List.exists_cons_of_ne_nil (List.concat_ne_nil name rest)
  rw [List.append_assoc, hrest] at h
  exact Entry.look?_of_below (h ▸ Option.some_ne_none kind)

/-- What comes before one of the names of a place is on the way to its directory. -/
theorem on_way_of_split {dir before after : List String} {last name : String}
    (h : dir ++ [last] = before ++ name :: after) : before <+: dir := by
  have hway : before <+: dir ++ [last] := ⟨name :: after, h.symm⟩
  rcases List.prefix_concat_iff.mp hway with rfl | hway
  · have hlength := congrArg List.length h
    simp at hlength
  · exact hway

/-- What following plain names from an address comes to, by what is seen on the way. -/
def reach (fs : FileSystem) (done : List String) : List String → Except FileError Unit
  | [] =>
    match fs.look? done with
    | none => .error .notFound
    | some _ => .ok ()
  | name :: names =>
    match fs.look? done with
    | none => .error .notFound
    | some (.file ..) => .error .notDirectory
    | some .directory =>
      if nameLimit < name.utf8ByteSize then .error .nameTooLong
      else fs.reach (done ++ [name]) names

section reach

variable {fs fs' : FileSystem} {done names : List String} {name : String}

theorem reach_of_none (h : fs.look? done = none) (names : List String) :
    fs.reach done names = .error .notFound := by
  cases names <;> rw [reach, h]

theorem reach_of_file {bytes : List UInt8} {time : Time}
    (h : fs.look? done = some (.file bytes time)) (name : String) (names : List String) :
    fs.reach done (name :: names) = .error .notDirectory := by
  rw [reach, h]

theorem reach_of_tooLong (h : fs.look? done = some .directory)
    (hname : nameLimit < name.utf8ByteSize) (names : List String) :
    fs.reach done (name :: names) = .error .nameTooLong := by
  rw [reach, h]
  exact if_pos hname

theorem reach_of_directory (h : fs.look? done = some .directory)
    (hname : name.utf8ByteSize ≤ nameLimit) (names : List String) :
    fs.reach done (name :: names) = fs.reach (done ++ [name]) names := by
  rw [reach, h]
  exact if_neg (Nat.not_lt_of_le hname)

/-- Names after others are followed from where those lead. -/
theorem reach_append (fs : FileSystem) (done names rest : List String) :
    fs.reach done (names ++ rest) =
      fs.reach done names >>= fun _ => fs.reach (done ++ names) rest := by
  induction names generalizing done with
  | nil =>
    rw [List.nil_append, List.append_nil, reach]
    cases h : fs.look? done with
    | none => exact reach_of_none h rest
    | some kind => rfl
  | cons name names ih =>
    rw [List.cons_append, reach, reach]
    cases fs.look? done with
    | none => rfl
    | some kind =>
      cases kind with
      | file bytes time => rfl
      | directory =>
        dsimp only
        split
        · rfl
        · rw [ih, List.append_assoc, List.singleton_append]

/-- Names lead to something if it is there and none of them is too long. -/
theorem reach_eq_ok_iff :
    fs.reach done names = .ok () ↔
      fs.look? (done ++ names) ≠ none ∧ ∀ name ∈ names, name.utf8ByteSize ≤ nameLimit := by
  induction names generalizing done with
  | nil =>
    rw [reach, List.append_nil]
    cases fs.look? done <;> simp
  | cons name names ih =>
    rw [List.forall_mem_cons]
    by_cases hdirectory : fs.look? done = some .directory
    · by_cases hname : name.utf8ByteSize ≤ nameLimit
      · rw [reach_of_directory hdirectory hname, ih, List.append_assoc, List.singleton_append]
        simp [hname]
      · rw [reach_of_tooLong hdirectory (Nat.lt_of_not_le hname)]
        simp [hname]
    · have hnone : fs.look? (done ++ name :: names) = none :=
        Classical.not_not.mp fun hsome => hdirectory (Entry.look?_of_below hsome)
      rw [hnone, reach]
      cases hkind : fs.look? done with
      | none => simp
      | some kind =>
        cases kind with
        | file bytes time => simp
        | directory => exact absurd hkind hdirectory

/-- What names do not find is not there. -/
theorem look?_of_reach_notFound (h : fs.reach done names = .error .notFound) :
    fs.look? (done ++ names) = none := by
  induction names generalizing done with
  | nil =>
    rw [reach] at h
    rw [List.append_nil]
    cases hkind : fs.look? done with
    | none => rfl
    | some kind =>
      rw [hkind] at h
      cases h
  | cons name names ih =>
    cases hkind : fs.look? done with
    | none => exact look?_append_of_none hkind _
    | some kind =>
      cases kind with
      | file bytes time =>
        rw [reach_of_file hkind] at h
        cases h
      | directory =>
        by_cases hname : name.utf8ByteSize ≤ nameLimit
        · rw [reach_of_directory hkind hname] at h
          simpa using ih h
        · rw [reach_of_tooLong hkind (Nat.lt_of_not_le hname)] at h
          cases h

/-- Where on the way nothing looks different but directories where there was nothing, and the names
that go on from those are not too long, and the end looks the same, following the names comes to the
same. -/
theorem reach_eq_of_added
    (hway : ∀ before name after, names = before ++ name :: after →
      fs'.look? (done ++ before) = fs.look? (done ++ before) ∨
        fs.look? (done ++ before) = none ∧ fs'.look? (done ++ before) = some .directory ∧
          name.utf8ByteSize ≤ nameLimit)
    (hend : fs'.look? (done ++ names) = fs.look? (done ++ names)) :
    fs'.reach done names = fs.reach done names := by
  induction names generalizing done with
  | nil =>
    rw [List.append_nil] at hend
    rw [reach, reach, hend]
  | cons name names ih =>
    have hrest : fs'.reach (done ++ [name]) names = fs.reach (done ++ [name]) names := by
      refine ih (fun before next after heq => ?_) (by simpa using hend)
      have hsplit := hway (name :: before) next after (by rw [heq, List.cons_append])
      simpa using hsplit
    have hfirst := hway [] name names rfl
    rw [List.append_nil] at hfirst
    rcases hfirst with hsame | ⟨hnone, hdirectory, hname⟩
    · rw [reach, reach, hsame, hrest]
    · rw [reach_of_directory hdirectory hname, hrest, reach_of_none hnone,
        reach_of_none (look?_append_of_none hnone [name])]

end reach

/-- What following plain names from the top comes to. -/
def access (fs : FileSystem) (names : List String) : Except FileError Unit :=
  if pathLimit < pathSize names then .error .nameTooLong else fs.reach [] names

theorem access_eq_ok_iff {fs : FileSystem} {names : List String} :
    fs.access names = .ok () ↔ Fits names ∧ fs.look? names ≠ none := by
  rw [access, Fits]
  by_cases hsize : pathLimit < pathSize names
  · simp [hsize, Nat.not_le_of_gt hsize]
  · rw [if_neg hsize, reach_eq_ok_iff]
    simp [Nat.le_of_not_lt hsize, and_comm]

/-- Where on the way to a place nothing looks different but directories where there was nothing, and
the names that go on from those are not too long, it is found as before. -/
theorem access_eq_of_added {fs fs' : FileSystem} {names : List String}
    (hway : ∀ before name after, names = before ++ name :: after →
      fs'.look? before = fs.look? before ∨
        fs.look? before = none ∧ fs'.look? before = some .directory ∧
          name.utf8ByteSize ≤ nameLimit)
    (hend : fs'.look? names = fs.look? names) : fs'.access names = fs.access names := by
  rw [access, access, reach_eq_of_added hway hend]

/-- Names that are only missing make no path that is too long. -/
theorem pathSize_le_of_access_notFound {fs : FileSystem} {names : List String}
    (h : fs.access names = .error .notFound) :
    pathSize names ≤ pathLimit := by
  by_contra hlong
  rw [access, if_pos (Nat.lt_of_not_le hlong)] at h
  cases h

/-! ## Operations -/

/-- Whether anything stands at the end of a trail. -/
def arrive (fs : FileSystem) (trail : Trail) : Except FileError Unit :=
  match fs.entry? trail with
  | none => .error .notFound
  | some _ => .ok ()

/-- Plain names lead where the walk along them arrives. -/
theorem reach_eq_walk {fs : FileSystem} {trail : Trail} {names : List String}
    (h : fs.HasTrail trail) (hplain : ∀ name ∈ names, PlainName name) :
    fs.reach (address trail) names = fs.walk trail names >>= fs.arrive := by
  induction names generalizing trail with
  | nil =>
    rw [reach, look?_address h]
    change _ = fs.arrive trail
    unfold arrive
    cases fs.entry? trail <;> rfl
  | cons name names ih =>
    obtain ⟨⟨hempty, hdot, hdots⟩, hplain⟩ := List.forall_mem_cons.mp hplain
    rw [reach, walk, look?_address h]
    cases hentry : fs.entry? trail with
    | none => rfl
    | some entry =>
      cases entry with
      | file bytes time => rfl
      | directory time? contents =>
        have hstep : fs.HasTrail ((name, contents.get? name) :: trail) :=
          ⟨h, time?, contents, hentry, rfl⟩
        simp only [Option.map_some, Entry.kind, hempty, hdot, hdots, or_self, if_false]
        split
        · rfl
        · exact ih hstep hplain

section operations

variable {fs : FileSystem} {names : List String} {path : String}

/-- Plain names make no empty path. -/
theorem not_empty_of_plain (hplain : ∀ name ∈ names, PlainName name) (hne : names ≠ []) :
    ¬ (names = [] ∨ names = [""]) := by
  rintro (rfl | rfl)
  · exact hne rfl
  · exact (hplain "" List.mem_cons_self).1 rfl

theorem access_eq_follow (hplain : ∀ name ∈ names, PlainName name) (hne : names ≠ []) :
    fs.access names = fs.follow names >>= fs.arrive := by
  rw [access, follow, if_neg (not_empty_of_plain hplain hne)]
  split
  · rfl
  · exact reach_eq_walk fs.hasTrail_nil hplain

theorem walk_of_follow {trail : Trail} (h : fs.follow names = .ok trail) :
    fs.walk [] names = .ok trail := by
  unfold follow at h
  split at h
  · cases h
  · split at h
    · cases h
    · exact h

theorem names_ne_nil (path : String) : FileSystem.names path ≠ [] :=
  fun hnil => Text.splitOn_ne_nil '/' path.toList (List.map_eq_nil_iff.mp hnil)

/-- Something stands where a plain path leads exactly if following it finds something. -/
theorem stat_access (fs : FileSystem) (hpath : PlainPath path) :
    (fs.stat path).map (fun _ => ()) = fs.access (FileSystem.names path) := by
  rw [access_eq_follow hpath (names_ne_nil path), stat, locate]
  cases fs.follow (FileSystem.names path) with
  | error error => rfl
  | ok trail =>
    simp only [Bind.bind, Except.bind, arrive]
    cases fs.entry? trail <;> rfl

/-- Plain names lead to a directory exactly if following them finds one. -/
theorem isDirectory_iff (hplain : ∀ name ∈ names, PlainName name) (hne : names ≠ []) :
    fs.isDirectory names = true ↔
      fs.access names = .ok () ∧ fs.look? names = some .directory := by
  rw [access_eq_follow hplain hne, isDirectory]
  cases hfollow : fs.follow names with
  | error error => simp [Bind.bind, Except.bind]
  | ok trail =>
    have hwalk := walk_of_follow hfollow
    have haddress : address trail = names := address_walk hplain hwalk
    rw [← haddress, look?_address (HasTrail.walk fs.hasTrail_nil hwalk)]
    simp only [Bind.bind, Except.bind, arrive]
    cases fs.entry? trail with
    | none => simp
    | some entry => cases entry <;> simp [Entry.isDirectory, Entry.kind]

end operations

end TabMarkup.FileSystem
