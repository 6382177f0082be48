import TabMarkup.FileSystem

/-!
# Looking at places

What can be seen of a file system from its top: at each address, which is a list of names, a file
with its bytes and its time, a directory, or nothing. A trail that was walked ends at an address,
and changing what stands at its end changes what is seen there and below, and nothing else.
-/

namespace TabMarkup.FileSystem

/-- What is seen of an entry without looking into it. When a directory was last changed is not
seen. -/
inductive Kind where
  | file (bytes : List UInt8) (time : Time)
  | directory
  deriving Repr, DecidableEq

namespace Entry

/-- What an entry is seen as. -/
def kind : Entry → Kind
  | .file bytes time => .file bytes time
  | .directory .. => .directory

/-- What is seen below an entry, along some names. -/
def look? : Entry → List String → Option Kind
  | entry, [] => some entry.kind
  | .file .., _ :: _ => none
  | .directory _ contents, name :: names =>
    (contents.get? name).bind fun entry => entry.look? names

/-- What is seen as a file is this file. -/
theorem eq_file_of_kind {entry : Entry} {bytes : List UInt8} {time : Time}
    (h : entry.kind = .file bytes time) : entry = .file bytes time := by
  cases entry with
  | file bytes' time' =>
    cases h
    rfl
  | directory time? contents => cases h

theorem eq_directory_of_kind {entry : Entry} (h : entry.kind = .directory) :
    ∃ time? contents, entry = .directory time? contents := by
  cases entry with
  | file bytes time => cases h
  | directory time? contents => exact ⟨time?, contents, rfl⟩

@[simp] theorem look?_nil (entry : Entry) : entry.look? [] = some entry.kind := by
  cases entry <;> rfl

end Entry

/-- What is seen at an address. -/
def look? (fs : FileSystem) (address : List String) : Option Kind :=
  fs.top.look? address

/-- Nothing stands in the empty file system. -/
theorem look?_empty {address : List String} (hne : address ≠ []) : empty.look? address = none := by
  obtain ⟨name, names, rfl⟩ := List.exists_cons_of_ne_nil hne
  rfl

/-! ## Trails -/

/-- The address at which a trail ends. -/
def address : Trail → List String
  | [] => []
  | (name, _) :: trail => address trail ++ [name]

/-- The trail leads through directories of this file system, and has all that stands on it. -/
def HasTrail (fs : FileSystem) : Trail → Prop
  | [] => True
  | (name, entry?) :: trail =>
    fs.HasTrail trail ∧ ∃ time? contents,
      fs.entry? trail = some (.directory time? contents) ∧ entry? = contents.get? name

theorem hasTrail_nil (fs : FileSystem) : fs.HasTrail [] :=
  trivial

/-- What is seen from the end of a trail is seen from the top. -/
theorem look?_address_append {fs : FileSystem} {trail : Trail} (h : fs.HasTrail trail)
    (names : List String) :
    fs.look? (address trail ++ names) = (fs.entry? trail).bind fun entry => entry.look? names := by
  induction trail generalizing names with
  | nil => rfl
  | cons step trail ih =>
    obtain ⟨name, entry?⟩ := step
    obtain ⟨htrail, time?, contents, hparent, rfl⟩ := h
    rw [address, List.append_assoc, ih htrail, hparent]
    rfl

theorem look?_address {fs : FileSystem} {trail : Trail} (h : fs.HasTrail trail) :
    fs.look? (address trail) = (fs.entry? trail).map Entry.kind := by
  have hlook := look?_address_append h []
  rw [List.append_nil] at hlook
  rw [hlook]
  cases fs.entry? trail <;> simp

/-- Below nothing and below a file there is nothing. -/
theorem look?_below {fs : FileSystem} {trail : Trail} (h : fs.HasTrail trail)
    (hnot : fs.look? (address trail) ≠ some .directory) {names : List String} (hne : names ≠ []) :
    fs.look? (address trail ++ names) = none := by
  obtain ⟨name, names, rfl⟩ := List.exists_cons_of_ne_nil hne
  rw [look?_address h] at hnot
  rw [look?_address_append h]
  cases hentry : fs.entry? trail with
  | none => rfl
  | some entry =>
    cases entry with
    | file bytes time => rfl
    | directory time? contents =>
      rw [hentry] at hnot
      exact absurd rfl hnot

/-- The trail back from the end of a trail. -/
theorem HasTrail.tail {fs : FileSystem} {trail : Trail} (h : fs.HasTrail trail) :
    fs.HasTrail trail.tail := by
  cases trail with
  | nil => exact h
  | cons step trail => exact h.1

theorem address_tail (trail : Trail) : address trail.tail = (address trail).dropLast := by
  cases trail with
  | nil => rfl
  | cons step trail => simp [address]

/-- The ways in which a walk goes on with one name from a directory: it stays there, goes up, or
goes down to what has that name. -/
theorem walk_cons_eq_ok {fs : FileSystem} {trail end' : Trail} {name : String}
    {names : List String} :
    fs.walk trail (name :: names) = .ok end' ↔
      ∃ time? contents, fs.entry? trail = some (.directory time? contents) ∧
        ((name = "" ∨ name = ".") ∧ fs.walk trail names = .ok end' ∨
          ¬ (name = "" ∨ name = ".") ∧ name = ".." ∧ fs.walk trail.tail names = .ok end' ∨
          ¬ (name = "" ∨ name = ".") ∧ name ≠ ".." ∧ name.utf8ByteSize ≤ nameLimit ∧
            fs.walk ((name, contents.get? name) :: trail) names = .ok end') := by
  rw [walk]
  cases fs.entry? trail with
  | none => simp
  | some entry =>
    cases entry with
    | file bytes time => simp
    | directory time? contents =>
      have hcontents : ∀ (p : Table Entry → Prop), (∃ time'? contents',
          some (Entry.directory time? contents) = some (.directory time'? contents') ∧
            p contents') ↔ p contents := by
        intro p
        constructor
        · rintro ⟨_, _, heq, hp⟩
          cases heq
          exact hp
        · intro hp
          exact ⟨time?, contents, rfl, hp⟩
      rw [hcontents]
      dsimp only
      by_cases hstay : name = "" ∨ name = "."
      · simp [hstay]
      by_cases hup : name = ".."
      · simp [hup]
      by_cases hlimit : nameLimit < name.utf8ByteSize
      · simp [hstay, hup, hlimit, Nat.not_le_of_gt hlimit]
      · simp [hstay, hup, hlimit, Nat.le_of_not_lt hlimit]

/-- Walking leaves a trail of the file system. -/
theorem HasTrail.walk {fs : FileSystem} {trail trail' : Trail} {names : List String}
    (h : fs.HasTrail trail) (hok : fs.walk trail names = .ok trail') : fs.HasTrail trail' := by
  induction names generalizing trail with
  | nil =>
    cases hok
    exact h
  | cons name names ih =>
    obtain ⟨time?, contents, hentry, ⟨_, hok⟩ | ⟨_, _, hok⟩ | ⟨_, _, _, hok⟩⟩ :=
      walk_cons_eq_ok.mp hok
    · exact ih h hok
    · exact ih h.tail hok
    · have hstep : fs.HasTrail ((name, contents.get? name) :: trail) :=
        ⟨h, time?, contents, hentry, rfl⟩
      exact ih hstep hok

/-- A name that is followed as it is: neither empty nor one of the two that lead elsewhere. -/
def PlainName (name : String) : Prop :=
  name ≠ "" ∧ name ≠ "." ∧ name ≠ ".."

instance (name : String) : Decidable (PlainName name) :=
  inferInstanceAs (Decidable (_ ∧ _))

/-- The address to which names lead from another one, where they can be followed. -/
def destination (start : List String) : List String → List String
  | [] => start
  | name :: names =>
    if name = "" ∨ name = "." then destination start names
    else if name = ".." then destination start.dropLast names
    else destination (start ++ [name]) names

theorem destination_append (start names rest : List String) :
    destination start (names ++ rest) = destination (destination start names) rest := by
  fun_induction destination start names with
  | case1 start => rfl
  | case2 start name names hstay ih => rw [List.cons_append, destination, if_pos hstay, ih]
  | case3 start names hstay ih =>
    rw [List.cons_append, destination, if_neg hstay, if_pos rfl, ih]
  | case4 start name names hstay hup ih =>
    rw [List.cons_append, destination, if_neg hstay, if_neg hup, ih]

/-- Plain names lead to the address that they make. -/
theorem destination_of_plain {names : List String} (hplain : ∀ name ∈ names, PlainName name)
    (start : List String) : destination start names = start ++ names := by
  induction names generalizing start with
  | nil => rw [destination, List.append_nil]
  | cons name names ih =>
    obtain ⟨⟨hempty, hdot, hdots⟩, hplain⟩ := List.forall_mem_cons.mp hplain
    rw [destination, if_neg (by simp [hempty, hdot]), if_neg hdots, ih hplain, List.append_assoc]
    rfl

/-- A walk ends at the destination of its names. -/
theorem address_of_walk {fs : FileSystem} {trail trail' : Trail} {names : List String}
    (hok : fs.walk trail names = .ok trail') :
    address trail' = destination (address trail) names := by
  induction names generalizing trail with
  | nil =>
    cases hok
    rfl
  | cons name names ih =>
    obtain ⟨time?, contents, hentry, ⟨hstay, hok⟩ | ⟨hstay, hup, hok⟩ | ⟨hstay, hup, _, hok⟩⟩ :=
      walk_cons_eq_ok.mp hok
    · rw [destination, if_pos hstay, ih hok]
    · rw [destination, if_neg hstay, if_pos hup, ih hok, address_tail]
    · rw [destination, if_neg hstay, if_neg hup, ih hok, address]

theorem address_walk {fs : FileSystem} {trail trail' : Trail} {names : List String}
    (hplain : ∀ name ∈ names, PlainName name) (hok : fs.walk trail names = .ok trail') :
    address trail' = address trail ++ names := by
  rw [address_of_walk hok, destination_of_plain hplain]

/-- Where a trail ends in a directory, so does every trail to the same address of a file system
that has kept all directories. -/
theorem directory_of_directories {fs fs' : FileSystem}
    (hkept : ∀ address, fs.look? address = some .directory → fs'.look? address = some .directory)
    {trail trail' : Trail} (h : fs.HasTrail trail) (h' : fs'.HasTrail trail')
    (haddress : address trail' = address trail) {time? : Option Time} {contents : Table Entry}
    (hentry : fs.entry? trail = some (.directory time? contents)) :
    ∃ time'? contents', entry? fs' trail' = some (.directory time'? contents') := by
  have hdirectory : fs'.look? (address trail') = some .directory := by
    rw [haddress]
    apply hkept
    rw [look?_address h, hentry]
    rfl
  rw [look?_address h'] at hdirectory
  obtain ⟨entry, hentry', hkind⟩ := Option.map_eq_some_iff.mp hdirectory
  obtain ⟨time'?, contents', rfl⟩ := Entry.eq_directory_of_kind hkind
  exact ⟨time'?, contents', hentry'⟩

/-- Where all directories are kept, every walk goes on to the same address. -/
theorem walk_of_directories {fs fs' : FileSystem}
    (hkept : ∀ address, fs.look? address = some .directory → fs'.look? address = some .directory)
    {trail trail' end' : Trail} {names : List String} (h : fs.HasTrail trail)
    (h' : fs'.HasTrail trail') (haddress : address trail' = address trail)
    (hok : fs.walk trail names = .ok end') :
    ∃ end'', fs'.walk trail' names = .ok end'' ∧ address end'' = address end' := by
  induction names generalizing trail trail' with
  | nil =>
    cases hok
    exact ⟨trail', rfl, haddress⟩
  | cons name names ih =>
    obtain ⟨time?, contents, hentry, hcases⟩ := walk_cons_eq_ok.mp hok
    obtain ⟨time'?, contents', hentry'⟩ := directory_of_directories hkept h h' haddress hentry
    rcases hcases with ⟨hstay, hok⟩ | ⟨hstay, hup, hok⟩ | ⟨hstay, hup, hlimit, hok⟩
    · obtain ⟨end'', hok', hend⟩ := ih h h' haddress hok
      exact ⟨end'', walk_cons_eq_ok.mpr ⟨_, _, hentry', Or.inl ⟨hstay, hok'⟩⟩, hend⟩
    · have htail : address trail'.tail = address trail.tail := by
        rw [address_tail, address_tail, haddress]
      obtain ⟨end'', hok', hend⟩ := ih h.tail h'.tail htail hok
      exact ⟨end'', walk_cons_eq_ok.mpr ⟨_, _, hentry', Or.inr (Or.inl ⟨hstay, hup, hok'⟩)⟩,
        hend⟩
    · have hstep : fs.HasTrail ((name, contents.get? name) :: trail) :=
        ⟨h, time?, contents, hentry, rfl⟩
      have hstep' : fs'.HasTrail ((name, contents'.get? name) :: trail') :=
        ⟨h', time'?, contents', hentry', rfl⟩
      obtain ⟨end'', hok', hend⟩ :=
        ih hstep hstep' (by rw [address, address, haddress]) hok
      exact ⟨end'', walk_cons_eq_ok.mpr
        ⟨_, _, hentry', Or.inr (Or.inr ⟨hstay, hup, hlimit, hok'⟩)⟩, hend⟩

/-! ## Changing what stands at the end of a trail -/

/-- What is put at the end of a trail is seen there and below. -/
theorem look?_put_append {fs : FileSystem} {trail : Trail} (h : fs.HasTrail trail) (entry : Entry)
    (names : List String) :
    (fs.put trail entry).look? (address trail ++ names) = entry.look? names := by
  induction trail generalizing entry names with
  | nil => rfl
  | cons step trail ih =>
    obtain ⟨name, entry?⟩ := step
    obtain ⟨htrail, time?, contents, hparent, rfl⟩ := h
    rw [put, hparent, address, List.append_assoc]
    dsimp only
    rw [ih htrail]
    simp [Entry.look?, Table.get?_insert]

/-- A directory with something else under one name looks the same except there and below, if
putting it where it stands changes nothing elsewhere. -/
theorem look?_put_directory_of {fs : FileSystem} {trail : Trail} (h : fs.HasTrail trail)
    (helsewhere : ∀ entry names, ¬ address trail <+: names →
      (fs.put trail entry).look? names = fs.look? names)
    {time? time'? : Option Time} {contents contents' : Table Entry} {name : String}
    (hentry : fs.entry? trail = some (.directory time? contents))
    (hsame : ∀ other, other ≠ name → contents'.get? other = contents.get? other)
    {names : List String} (hnot : ¬ address trail ++ [name] <+: names) :
    (fs.put trail (.directory time'? contents')).look? names = fs.look? names := by
  by_cases hbelow : address trail <+: names
  · obtain ⟨rest, rfl⟩ := hbelow
    rw [look?_put_append h, look?_address_append h, hentry]
    cases rest with
    | nil => rfl
    | cons other rest =>
      have hother : other ≠ name := by
        rintro rfl
        exact hnot ⟨rest, by simp⟩
      simp [Entry.look?, hsame other hother]
  · exact helsewhere _ _ hbelow

/-- What is put at the end of a trail is seen nowhere else. -/
theorem look?_put_elsewhere {fs : FileSystem} {trail : Trail} (h : fs.HasTrail trail)
    (entry : Entry) (names : List String) (hnot : ¬ address trail <+: names) :
    (fs.put trail entry).look? names = fs.look? names := by
  induction trail generalizing entry names with
  | nil => exact absurd List.nil_prefix hnot
  | cons step trail ih =>
    obtain ⟨name, entry?⟩ := step
    obtain ⟨htrail, time?, contents, hparent, rfl⟩ := h
    rw [put, hparent]
    refine look?_put_directory_of htrail (ih htrail) hparent (fun other hother => ?_) hnot
    rw [Table.get?_insert, if_neg hother]

/-- A directory with something else under one name looks the same except there and below. -/
theorem look?_put_directory {fs : FileSystem} {trail : Trail} (h : fs.HasTrail trail)
    {time? time'? : Option Time} {contents contents' : Table Entry} {name : String}
    (hentry : fs.entry? trail = some (.directory time? contents))
    (hsame : ∀ other, other ≠ name → contents'.get? other = contents.get? other)
    {names : List String} (hnot : ¬ address trail ++ [name] <+: names) :
    (fs.put trail (.directory time'? contents')).look? names = fs.look? names :=
  look?_put_directory_of h (look?_put_elsewhere h) hentry hsame hnot

/-- Something new under a name is seen there and below, and nowhere else. -/
theorem look?_make {fs : FileSystem} {trail : Trail} (h : fs.HasTrail trail)
    {time? : Option Time} {contents : Table Entry}
    (hentry : fs.entry? trail = some (.directory time? contents)) (name : String)
    (entry : Entry) :
    (∀ rest, (fs.make trail name entry).look? (address trail ++ name :: rest) =
        entry.look? rest) ∧
      ∀ names, ¬ address trail ++ [name] <+: names →
        (fs.make trail name entry).look? names = fs.look? names := by
  rw [make, hentry]
  constructor
  · intro rest
    rw [look?_put_append h]
    simp [Entry.look?, Table.get?_insert]
  · intro names hnot
    refine look?_put_directory h hentry (fun other hother => ?_) hnot
    rw [Table.get?_insert, if_neg hother]

/-- What was removed is not seen any more, nor what was below it; everything else is. -/
theorem look?_unmake {fs : FileSystem} {name : String} {found? : Option Entry} {trail : Trail}
    (h : fs.HasTrail ((name, found?) :: trail)) :
    (∀ rest, (fs.unmake ((name, found?) :: trail)).look? (address trail ++ name :: rest) =
        none) ∧
      ∀ names, ¬ address trail ++ [name] <+: names →
        (fs.unmake ((name, found?) :: trail)).look? names = fs.look? names := by
  obtain ⟨htrail, time?, contents, hparent, rfl⟩ := h
  rw [unmake, hparent]
  constructor
  · intro rest
    rw [look?_put_append htrail]
    simp [Entry.look?, Table.get?_erase]
  · intro names hnot
    refine look?_put_directory htrail hparent (fun other hother => ?_) hnot
    rw [Table.get?_erase, if_neg hother]

end TabMarkup.FileSystem
