import TabMarkup.Proofs.FileSystem.AnyPath

/-!
# Paths into directories

Names lead into a directory, or fail at the first place on the way that is none, or at a name that
is too long. Empty names and `.` do not matter for this (`into_steps`), and a failure stays the same
whatever names come after it. Where a path leads to a file or to nothing, they do matter: behind a
directory such a name leads nowhere else, and behind anything else it does not lead on.
-/

namespace TabMarkup.FileSystem

/-! ## The names that lead on -/

/-- A path that never goes up. -/
def NeverUp (path : String) : Prop :=
  ".." ∉ names path

instance (path : String) : Decidable (NeverUp path) :=
  inferInstanceAs (Decidable (¬ _))

theorem PlainPath.neverUp {path : String} (h : PlainPath path) : NeverUp path :=
  fun hup => (h ".." hup).2.2 rfl

theorem steps_append (names rest : List String) :
    steps (names ++ rest) = steps names ++ steps rest :=
  List.filter_append ..

theorem leads_of_mem_steps {names : List String} {name : String} (h : name ∈ steps names) :
    name ≠ "" ∧ name ≠ "." := by
  simpa using (List.mem_filter.mp h).2

theorem steps_dropLast_steps (names : List String) :
    steps (steps names).dropLast = (steps names).dropLast :=
  List.filter_eq_self.mpr fun _ hname => by
    simpa using leads_of_mem_steps (List.mem_of_mem_dropLast hname)

theorem up_mem_steps {names : List String} : ".." ∈ steps names ↔ ".." ∈ names := by
  simp [steps]

/-- Where a path does not go up, the names that lead on are plain. -/
theorem plain_steps {names : List String} (hup : ".." ∉ names) :
    ∀ name ∈ steps names, PlainName name := by
  intro name hname
  obtain ⟨hempty, hdot⟩ := leads_of_mem_steps hname
  exact ⟨hempty, hdot, fun heq => hup (heq ▸ (List.mem_filter.mp hname).1)⟩

/-- A path that does not go up leads to the address that its other names make. -/
theorem destination_of_neverUp {names : List String} (hup : ".." ∉ names) :
    destination [] names = steps names := by
  rw [← destination_steps, destination_of_plain (plain_steps hup), List.nil_append]

/-- A path that does not go up passes only through places on the way to its end. -/
theorem on_way_of_passesThrough {names address : List String} (hup : ".." ∉ names)
    (h : PassesThrough names address) : address <+: destination [] names := by
  obtain ⟨before, hbefore, rfl⟩ := h
  rw [destination_of_neverUp hup, destination_of_neverUp fun hmem => hup (hbefore.subset hmem)]
  exact hbefore.filter _

theorem steps_withoutEnd (names : List String) : steps (withoutEnd names) = steps names := by
  induction names using List.reverseRecOn with
  | nil => rfl
  | append_singleton names name ih =>
    by_cases hempty : name = ""
    · rw [withoutEnd, List.reverse_concat, List.dropWhile_cons_of_pos (by simpa using hempty),
        ← withoutEnd, ih, steps_append, hempty]
      simp [steps]
    · rw [withoutEnd, List.reverse_concat, List.dropWhile_cons_of_neg (by simpa using hempty),
        List.reverse_cons, List.reverse_reverse]

/-! ## Going into directories -/

/-- The trail itself, if it ends in a directory. -/
def enter (fs : FileSystem) (trail : Trail) : Except FileError Trail :=
  match fs.entry? trail with
  | none => .error .notFound
  | some (.file ..) => .error .notDirectory
  | some (.directory ..) => .ok trail

/-- The trail along names into a directory. -/
def into (fs : FileSystem) (trail : Trail) (names : List String) : Except FileError Trail :=
  fs.walk trail names >>= fs.enter

variable {fs fs' : FileSystem} {trail end' : Trail} {names : List String} {error : FileError}

theorem enter_eq_ok :
    fs.enter trail = .ok end' ↔
      trail = end' ∧ ∃ time? contents, fs.entry? trail = some (.directory time? contents) := by
  unfold enter
  cases fs.entry? trail with
  | none => simp
  | some entry => cases entry <;> simp

theorem into_eq_ok :
    fs.into trail names = .ok end' ↔
      fs.walk trail names = .ok end' ∧
        ∃ time? contents, fs.entry? end' = some (.directory time? contents) := by
  unfold into
  rw [bind_eq_ok]
  constructor
  · rintro ⟨_, hwalk, henter⟩
    obtain ⟨rfl, hdirectory⟩ := enter_eq_ok.mp henter
    exact ⟨hwalk, hdirectory⟩
  · rintro ⟨hwalk, hdirectory⟩
    exact ⟨end', hwalk, enter_eq_ok.mpr ⟨rfl, hdirectory⟩⟩

/-- Names lead on from directories only. -/
theorem enter_bind_walk (fs : FileSystem) (trail : Trail) (name : String) (names : List String) :
    (fs.enter trail >>= fun trail => fs.walk trail (name :: names)) =
      fs.walk trail (name :: names) := by
  unfold enter
  rw [walk]
  cases hentry : fs.entry? trail with
  | none => rfl
  | some entry => cases entry <;> simp [Bind.bind, Except.bind, walk, hentry]

theorem enter_bind_into (fs : FileSystem) (trail : Trail) (names : List String) :
    (fs.enter trail >>= fun trail => fs.into trail names) = fs.into trail names := by
  cases names with
  | nil =>
    change fs.enter trail >>= fs.enter = fs.enter trail
    cases henter : fs.enter trail with
    | error error => rfl
    | ok end' =>
      obtain ⟨rfl, _⟩ := enter_eq_ok.mp henter
      exact henter
  | cons name names =>
    unfold into
    rw [← enter_bind_walk fs trail]
    cases fs.enter trail <;> rfl

/-- Going on is going into the rest from the directory to which the first names lead. -/
theorem into_append (fs : FileSystem) (trail : Trail) (names rest : List String) :
    fs.into trail (names ++ rest) = fs.into trail names >>= fun trail => fs.into trail rest := by
  unfold into
  rw [walk_append]
  cases fs.walk trail names with
  | error error => rfl
  | ok end' => exact (enter_bind_into fs end' rest).symm

/-- What keeps names from leading into a directory keeps more of them from it. -/
theorem into_error_of_on_way {before : List String} (hbefore : before <+: names)
    (h : fs.into trail before = .error error) : fs.into trail names = .error error := by
  obtain ⟨rest, rfl⟩ := hbefore
  rw [into_append, h]
  rfl

theorem into_cons (fs : FileSystem) (trail : Trail) (name : String) (names : List String) :
    fs.into trail (name :: names) =
      fs.walk trail [name] >>= fun trail => fs.into trail names := by
  unfold into
  rw [← List.singleton_append, walk_append]
  cases fs.walk trail [name] <;> rfl

/-- Empty names and `.` do not matter on the way into a directory. -/
theorem into_steps (fs : FileSystem) (trail : Trail) (names : List String) :
    fs.into trail (steps names) = fs.into trail names := by
  unfold steps
  induction names generalizing trail with
  | nil => rfl
  | cons name names ih =>
    -- From a directory a name is gone, and from anything else nothing leads on.
    by_cases hstay : name = "" ∨ name = "."
    · have hdrop : ¬ (name ≠ "" ∧ name ≠ ".") := fun ⟨hempty, hdot⟩ => hstay.elim hempty hdot
      rw [List.filter_cons_of_neg (by simpa using hdrop), ih, ← enter_bind_into fs trail,
        ← enter_bind_into fs trail]
      cases henter : fs.enter trail with
      | error error => rfl
      | ok end' =>
        obtain ⟨rfl, time?, contents, hentry⟩ := enter_eq_ok.mp henter
        simp [Bind.bind, Except.bind, into, walk, hentry, hstay]
    · rw [List.filter_cons_of_pos (by simpa using hstay), into_cons, into_cons]
      exact bind_congr ih

/-- What keeps the steps of a path from leading into a directory keeps those of a longer one from
it. -/
theorem into_error_of_steps {before : List String} (hbefore : steps before <+: steps names)
    (h : fs.into trail before = .error error) : fs.into trail names = .error error := by
  rw [← into_steps] at h ⊢
  exact into_error_of_on_way hbefore h

/-- One more name is followed from the directory to which the others lead. -/
theorem walk_concat (fs : FileSystem) (trail : Trail) (names : List String) (name : String) :
    fs.walk trail (names ++ [name]) =
      fs.into trail names >>= fun trail => fs.walk trail [name] := by
  unfold into
  rw [walk_append]
  cases fs.walk trail names with
  | error error => rfl
  | ok end' => exact (enter_bind_walk fs end' name []).symm

/-! ## What keeps names from leading on -/

/-- A place is no directory because it is missing, or is a file. -/
theorem enter_error (h : fs.enter trail = .error error) :
    error = .notFound ∧ fs.entry? trail = none ∨
      error = .notDirectory ∧ ∃ bytes time, fs.entry? trail = some (.file bytes time) := by
  unfold enter at h
  split at h
  · rename_i hentry
    cases h
    exact Or.inl ⟨rfl, hentry⟩
  · rename_i bytes time hentry
    cases h
    exact Or.inr ⟨rfl, bytes, time, hentry⟩
  · cases h

/-- One name does not lead on from what is no directory, or it is too long. -/
theorem walk_one_error {name : String} (h : fs.walk trail [name] = .error error) :
    fs.enter trail = .error error ∨
      error = .nameTooLong ∧ PlainName name ∧ nameLimit < name.utf8ByteSize := by
  rw [walk] at h
  unfold enter
  cases hentry : fs.entry? trail with
  | none =>
    rw [hentry] at h
    exact Or.inl h
  | some entry =>
    rw [hentry] at h
    cases entry with
    | file bytes time => exact Or.inl h
    | directory time? contents =>
      dsimp only at h
      split at h
      · cases h
      rename_i hstay
      split at h
      · cases h
      rename_i hup
      split at h
      · rename_i hlimit
        cases h
        obtain ⟨hempty, hdot⟩ := not_or.mp hstay
        exact Or.inr ⟨rfl, ⟨hempty, hdot, hup⟩, hlimit⟩
      · cases h

/-- Names lead into no directory because one is missing, or is a file, or has a name that is too
long. -/
theorem into_error (h : fs.into trail names = .error error) :
    error = .notFound ∨ error = .notDirectory ∨ error = .nameTooLong := by
  have hends {trail : Trail} (henter : fs.enter trail = .error error) :
      error = .notFound ∨ error = .notDirectory ∨ error = .nameTooLong :=
    (enter_error henter).imp And.left fun hfile => Or.inl hfile.1
  induction names generalizing trail with
  | nil => exact hends h
  | cons name names ih =>
    rw [into_cons] at h
    rcases bind_eq_error.mp h with hone | ⟨next, _, hrest⟩
    · exact (walk_one_error hone).elim hends fun hlong => Or.inr (Or.inr hlong.1)
    · exact ih hrest

/-- Where names do not lead on from a file, the first of them lead to it. -/
theorem exists_file_of_into (h : fs.into trail names = .error .notDirectory) :
    ∃ before end' bytes time, before <+: names ∧ fs.walk trail before = .ok end' ∧
      fs.entry? end' = some (.file bytes time) := by
  have hhere {trail : Trail} (henter : fs.enter trail = .error .notDirectory) :
      ∃ bytes time, fs.entry? trail = some (.file bytes time) := by
    rcases enter_error henter with ⟨hnone, _⟩ | ⟨_, hfile⟩
    · cases hnone
    · exact hfile
  induction names generalizing trail with
  | nil =>
    obtain ⟨bytes, time, hfile⟩ := hhere h
    exact ⟨[], trail, bytes, time, List.nil_prefix, rfl, hfile⟩
  | cons name names ih =>
    rw [into_cons] at h
    rcases bind_eq_error.mp h with hone | ⟨next, hone, hrest⟩
    · rcases walk_one_error hone with henter | ⟨hlong, _⟩
      · obtain ⟨bytes, time, hfile⟩ := hhere henter
        exact ⟨[], trail, bytes, time, List.nil_prefix, rfl, hfile⟩
      · cases hlong
    · obtain ⟨before, end', bytes, time, hbefore, hwalk, hfile⟩ := ih hrest
      refine ⟨name :: before, end', bytes, time, List.cons_prefix_cons.mpr ⟨rfl, hbefore⟩, ?_,
        hfile⟩
      rw [← List.singleton_append, walk_append, hone]
      exact hwalk

/-- Where nothing was added but directories, a file to which plain names lead was there before, and
so were the directories on the way to it. -/
theorem into_of_file_of_added {places : List String → Prop} (hadds : OnlyAddsAt places fs fs')
    (hplain : ∀ name ∈ names, PlainName name) (hwalk : fs'.walk [] names = .ok end')
    {bytes : List UInt8} {time : Time} (hfile : fs'.entry? end' = some (.file bytes time)) :
    fs.into [] names = .error .notDirectory := by
  have hlook' := look?_address (HasTrail.walk fs'.hasTrail_nil hwalk)
  rw [address_walk hplain hwalk, address, List.nil_append, hfile] at hlook'
  have hlook : fs.look? names = some (.file bytes time) := by
    rcases hadds names with hsame | ⟨_, hdirectory, _⟩
    · exact hsame.symm.trans hlook'
    · rw [hdirectory] at hlook'
      cases hlook'
  have hreach' := reach_eq_walk fs'.hasTrail_nil hplain
  rw [hwalk] at hreach'
  have hfound : fs'.reach [] names = .ok () := by
    rw [← address, hreach']
    simp [Bind.bind, Except.bind, arrive, hfile]
  have hreach : fs.reach [] names = .ok () :=
    reach_eq_ok_iff.mpr ⟨by simp [hlook], (reach_eq_ok_iff.mp hfound).2⟩
  rw [← address, reach_eq_walk fs.hasTrail_nil hplain] at hreach
  obtain ⟨trail, hwalk', _⟩ := bind_eq_ok.mp hreach
  have hentry := look?_address (HasTrail.walk fs.hasTrail_nil hwalk')
  rw [address_walk hplain hwalk', address, List.nil_append, hlook] at hentry
  obtain ⟨entry, hentry, hkind⟩ := Option.map_eq_some_iff.mp hentry.symm
  rw [Entry.eq_file_of_kind hkind] at hentry
  simp [into, hwalk', Bind.bind, Except.bind, enter, hentry]

/-- Where nothing was added but directories, a path that does not go up leads on from a file only if
it did before. -/
theorem into_notDirectory_of_added {places : List String → Prop} (hadds : OnlyAddsAt places fs fs')
    (hup : ".." ∉ names) (h : fs'.into [] names = .error .notDirectory) :
    fs.into [] names = .error .notDirectory := by
  rw [← into_steps] at h ⊢
  obtain ⟨before, end', bytes, time, hbefore, hwalk, hfile⟩ := exists_file_of_into h
  have hplain : ∀ name ∈ before, PlainName name := fun name hname =>
    plain_steps hup name (hbefore.subset hname)
  exact into_error_of_on_way hbefore (into_of_file_of_added hadds hplain hwalk hfile)

/-! ## What stands in a directory -/

/-- In a directory given by a path that does not go up, something stands under a plain name exactly
if following the names that lead on finds something. -/
theorem stat_of_neverUp (fs : FileSystem) {path name : String} {before : List String}
    (hnames : FileSystem.names path = before ++ [name]) (hname : PlainName name)
    (hup : ".." ∉ before) :
    (fs.stat path).map (fun _ => ()) =
      if pathLimit < pathSize (FileSystem.names path) then .error .nameTooLong
      else fs.reach [] (steps before ++ [name]) := by
  have hne : ¬ (FileSystem.names path = [] ∨ FileSystem.names path = [""]) := by
    rw [hnames]
    simp [List.append_eq_singleton_iff, hname.1]
  rw [stat, locate, follow, if_neg hne]
  split
  · rfl
  · have hplain : ∀ part ∈ steps before ++ [name], PlainName part := by
      simpa [or_imp, forall_and] using ⟨plain_steps hup, hname⟩
    have hreach := reach_eq_walk fs.hasTrail_nil hplain
    rw [address, walk_concat, into_steps, ← walk_concat, ← hnames] at hreach
    rw [hreach]
    cases fs.walk [] (FileSystem.names path) with
    | error error => rfl
    | ok trail =>
      simp only [Bind.bind, Except.bind, arrive]
      cases fs.entry? trail <;> rfl

end TabMarkup.FileSystem
