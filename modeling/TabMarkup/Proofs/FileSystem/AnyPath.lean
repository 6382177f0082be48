import TabMarkup.Proofs.FileSystem.Writing

/-!
# Paths with any names

A path can have empty names, `.` and `..` in it, and so it can pass through places that it leaves
again. Main statement: making a directory with its parents along any path makes directories at
places that the path passes through, whether or not it comes to its end, and changes nothing else
(`onlyAddsAt_makeDirectories`). Where the path leads to something already, it changes nothing at
all.
-/

namespace TabMarkup.FileSystem

/-- The first names lead to this address. -/
def PassesThrough (names address : List String) : Prop :=
  ∃ before, before <+: names ∧ destination [] before = address

/-- The names that lead on, down or up: all but the empty ones and `.`. -/
def steps (names : List String) : List String :=
  names.filter fun name => name ≠ "" ∧ name ≠ "."

/-- Empty names and `.` lead nowhere else. -/
theorem destination_steps (start names : List String) :
    destination start (steps names) = destination start names := by
  unfold steps
  fun_induction destination start names with
  | case1 start => rfl
  | case2 start name names hstay ih =>
    have hdrop : ¬ (name ≠ "" ∧ name ≠ ".") := by
      rintro ⟨hempty, hdot⟩
      exact hstay.elim hempty hdot
    rw [List.filter_cons_of_neg (by simpa using hdrop), ih]
  | case3 start names hstay ih =>
    rw [List.filter_cons_of_pos (by decide), destination, if_neg hstay, if_pos rfl, ih]
  | case4 start name names hstay hup ih =>
    rw [List.filter_cons_of_pos (by simpa using hstay), destination, if_neg hstay, if_neg hup, ih]

/-- The way to the parent passes through no other places. -/
theorem passesThrough_of_parentNames {names address : List String}
    (h : PassesThrough (parentNames names) address) : PassesThrough names address := by
  cases names with
  | nil => exact h
  | cons first rest =>
    obtain ⟨before, hbefore, rfl⟩ := h
    have hbefore := hbefore.trans (List.dropLast_prefix _)
    -- What is kept of the other names leads where so many of them lead themselves.
    have hkept (start kept : List String) (hkept : kept <+: steps rest) :
        ∃ before, before <+: rest ∧ destination start before = destination start kept := by
      obtain ⟨behind, hsplit⟩ := hkept
      obtain ⟨before, after, rfl, rfl, _⟩ := List.filter_eq_append_iff.mp hsplit.symm
      exact ⟨before, List.prefix_append before after, (destination_steps start before).symm⟩
    split at hbefore
    · rename_i hempty
      obtain ⟨before', hbefore', hsame⟩ := hkept [] before hbefore
      refine ⟨first :: before', List.cons_prefix_cons.mpr ⟨rfl, hbefore'⟩, ?_⟩
      rw [destination, if_pos (Or.inl hempty), hsame]
    · rcases List.prefix_cons_iff.mp hbefore with rfl | ⟨kept, rfl, hbegins⟩
      · exact ⟨[], List.nil_prefix, rfl⟩
      · obtain ⟨before', hbefore', hsame⟩ := hkept (destination [] [first]) kept hbegins
        refine ⟨first :: before', List.cons_prefix_cons.mpr ⟨rfl, hbefore'⟩, ?_⟩
        rw [← List.singleton_append, destination_append, hsame, ← destination_append]
        rfl

/-- Making a directory with its parents only adds directories where the path passes through, whether
or not it succeeds. -/
theorem onlyAddsAt_makeDirectories (fs : FileSystem) (names : List String) :
    OnlyAddsAt (PassesThrough names) fs (fs.makeDirectories names).2 := by
  refine makeDirectories_induction_of (P := fun way => ∀ address, PassesThrough way address →
    PassesThrough names address) (OnlyAddsAt.refl _) (fun _ _ _ => OnlyAddsAt.trans)
    (fun way hway address hpasses => hway address (passesThrough_of_parentNames hpasses))
    (fun fs made way hway hmade => ?_) fs fun _ => id
  obtain ⟨hnone, hdirectory, honly⟩ := makeDirectory_ok_at hmade
  intro other
  by_cases hother : other = destination [] (withoutEnd way)
  · rw [hother]
    exact Or.inr ⟨hnone, hdirectory, hway _ ⟨_, withoutEnd_prefix way, rfl⟩⟩
  · exact Or.inl (honly other hother)

/-- Empty names at the end lead nowhere else. -/
theorem walk_withoutEnd {fs : FileSystem} {trail trail' : Trail} {names : List String}
    {entry : Entry} (hwalk : fs.walk trail names = .ok trail')
    (hentry : fs.entry? trail' = some entry) : fs.walk trail (withoutEnd names) = .ok trail' := by
  induction names using List.reverseRecOn generalizing trail' entry with
  | nil => exact hwalk
  | append_singleton names name ih =>
    by_cases hempty : name = ""
    · rw [walk_append] at hwalk
      obtain ⟨parent, hparent, hlast⟩ := bind_eq_ok.mp hwalk
      obtain ⟨time?, contents, hdirectory, ⟨_, hend⟩ | ⟨hnot, _⟩ | ⟨hnot, _⟩⟩ :=
        walk_cons_eq_ok.mp hlast
      · cases hend
        have hshorter : withoutEnd (names ++ [name]) = withoutEnd names := by
          rw [withoutEnd, List.reverse_concat, List.dropWhile_cons_of_pos (by simpa using hempty)]
          rfl
        rw [hshorter]
        exact ih hparent hdirectory
      · exact absurd (Or.inl hempty) hnot
      · exact absurd (Or.inl hempty) hnot
    · rwa [withoutEnd, List.reverse_concat, List.dropWhile_cons_of_neg (by simpa using hempty),
        List.reverse_cons, List.reverse_reverse]

/-- Where names lead to something, no directory can be made. -/
theorem makeDirectory_of_walk {fs : FileSystem} {names : List String} {trail : Trail}
    {entry : Entry} (hsize : ¬ pathLimit < pathSize names) (hwalk : fs.walk [] names = .ok trail)
    (hentry : fs.entry? trail = some entry) :
    ∃ error, error ≠ .notFound ∧ fs.makeDirectory names = .error error := by
  have hwalk' := walk_withoutEnd hwalk hentry
  have hlast (name : String) (hname : (withoutEnd names).getLast? = some name) : name ≠ "" :=
    getLast?_withoutEnd hname
  simp only [makeDirectory, if_neg hsize, Bind.bind, Except.bind]
  rcases List.eq_nil_or_concat' (withoutEnd names) with hnone | ⟨before, name, hsplit⟩
  · rw [hnone] at hwalk' ⊢
    cases hwalk'
    rw [List.dropLast_nil, walk]
    dsimp only
    rw [hentry]
    cases entry with
    | file bytes time => exact ⟨.notDirectory, by decide, rfl⟩
    | directory time? contents => exact ⟨.alreadyExists, by decide, rfl⟩
  · rw [hsplit] at hwalk' hlast ⊢
    have hempty : name ≠ "" := hlast name (List.getLast?_concat)
    rw [walk_append] at hwalk'
    obtain ⟨parent, hparent, hlast⟩ := bind_eq_ok.mp hwalk'
    obtain ⟨time?, contents, hdirectory, hcases⟩ := walk_cons_eq_ok.mp hlast
    rw [List.dropLast_concat, List.getLast?_concat, hparent]
    dsimp only
    rw [hdirectory]
    dsimp only
    by_cases hdots : name = "." ∨ name = ".."
    · exact ⟨.alreadyExists, by decide, if_pos hdots⟩
    · obtain ⟨hdot, hup⟩ := not_or.mp hdots
      rcases hcases with ⟨hstay, _⟩ | ⟨_, hup', _⟩ | ⟨_, _, hlimit, hend⟩
      · exact absurd hstay (by simp [hempty, hdot])
      · exact absurd hup' hup
      · cases hend
        have hfound : contents.get? name = some entry := hentry
        refine ⟨.alreadyExists, by decide, ?_⟩
        rw [if_neg hdots, if_neg (Nat.not_lt_of_le hlimit), hfound]
        rfl

/-- Where a path leads to something, nothing is made. -/
theorem makeDirectories_of_stat {fs : FileSystem} {path : String} {entry : Entry}
    (h : fs.stat path = .ok entry) : (fs.makeDirectories (names path)).2 = fs := by
  obtain ⟨trail, hlocate, hentry⟩ := stat_eq_ok.mp h
  obtain ⟨hne, hsize, hwalk⟩ := locate_eq_ok.mp hlocate
  obtain ⟨error, hfound, hmake⟩ := makeDirectory_of_walk hsize hwalk hentry
  rw [makeDirectories, dif_neg hne, hmake]
  cases error with
  | notFound => exact absurd rfl hfound
  | _ => rfl

end TabMarkup.FileSystem
