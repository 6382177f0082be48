import TabMarkup.Proofs.Directive.Composed

/-!
# The parts of directives

What a directive is made of, said without the functions that check it: identifiers, and paths of
identifiers with one backslash between each two. These are the names that pass the checks
(`isIdentifier_iff`, `isPath_iff`), and a text is read as a directive exactly if it is the text of
one with such parts (`ofText?_eq_some_iff`).
-/

namespace TabMarkup

namespace Name

/-- One or more ASCII letters, ASCII digits or `_`. -/
def IsIdentifier (x : List Char) : Prop :=
  x ≠ [] ∧ ∀ c ∈ x, c.isAlpha = true ∨ c.isDigit = true ∨ c = '_'

/-- Identifiers with one backslash between each two, and at most one in front. -/
def IsPath (p : List Char) : Prop :=
  ∃ root names, (root = [] ∨ root = ['\\']) ∧ names ≠ [] ∧ (∀ x ∈ names, IsIdentifier x) ∧
    p = root ++ ['\\'].intercalate names

theorem isIdentifier_iff {x : List Char} : isIdentifier x = true ↔ IsIdentifier x := by
  simp [isIdentifier, IsIdentifier, isIdentifierChar, Char.isAlphanum, or_assoc]

/-- What is joined from names begins as the first of them does. -/
theorem exists_cons_of_intercalate {names : List (List Char)} (hne : names ≠ [])
    (hnames : ∀ x ∈ names, IsIdentifier x) :
    ∃ c rest, ['\\'].intercalate names = c :: rest ∧ c ≠ '\\' := by
  obtain ⟨x, names, rfl⟩ := List.exists_cons_of_ne_nil hne
  have hx : IsIdentifier x := hnames x List.mem_cons_self
  obtain ⟨c, x, rfl⟩ := List.exists_cons_of_ne_nil hx.1
  have hc : c ≠ '\\' := by
    rintro rfl
    have hchar := hx.2 '\\' List.mem_cons_self
    revert hchar
    decide
  cases names with
  | nil => exact ⟨c, x, by simp, hc⟩
  | cons y names => exact ⟨c, x ++ '\\' :: ['\\'].intercalate (y :: names), by simp, hc⟩

/-- A backslash in front does not belong to what is joined from names. -/
theorem withoutRoot_append {root : List Char} {names : List (List Char)}
    (hroot : root = [] ∨ root = ['\\']) (hne : names ≠ [])
    (hnames : ∀ x ∈ names, IsIdentifier x) :
    withoutRoot (root ++ ['\\'].intercalate names) = ['\\'].intercalate names := by
  rcases hroot with rfl | rfl
  · obtain ⟨c, rest, hcons, hc⟩ := exists_cons_of_intercalate hne hnames
    rw [List.nil_append, hcons, withoutRoot]
    intro path heq
    exact hc (List.cons.inj heq).1
  · simp [withoutRoot]

theorem isPath_iff {p : List Char} : isPath p = true ↔ IsPath p := by
  constructor
  · intro hp
    have hroot : ∃ root, (root = [] ∨ root = ['\\']) ∧ p = root ++ withoutRoot p := by
      unfold withoutRoot
      split
      · exact ⟨['\\'], Or.inr rfl, by simp⟩
      · exact ⟨[], Or.inl rfl, by simp⟩
    obtain ⟨root, hroot, hsplit⟩ := hroot
    refine ⟨root, Text.splitOn '\\' (withoutRoot p), hroot, Text.splitOn_ne_nil _ _, ?_, ?_⟩
    · intro x hx
      exact isIdentifier_iff.mp (List.all_eq_true.mp hp x hx)
    · rw [Text.intercalate_splitOn]
      exact hsplit
  · rintro ⟨root, names, hroot, hne, hnames, rfl⟩
    have hmark : ∀ x ∈ names, '\\' ∉ x := fun x hx =>
      notMem_of_isIdentifier (isIdentifier_iff.mpr (hnames x hx)) (by decide)
    rw [isPath, withoutRoot_append hroot hne hnames, Text.splitOn_intercalate hne hmark,
      List.all_eq_true]
    exact fun x hx => isIdentifier_iff.mpr (hnames x hx)

end Name

namespace Directive

open Name

/-- The names of the directive are identifiers, and its path is a path. -/
def HasParts : Directive → Prop
  | .value name => IsIdentifier name.toList
  | .call object method => IsIdentifier object.toList ∧ IsIdentifier method.toList
  | .staticCall path method => IsPath path.toList ∧ IsIdentifier method.toList
  | .staticProperty path property => IsPath path.toList ∧ IsIdentifier property.toList

theorem wellFormed_iff {d : Directive} : d.WellFormed ↔ d.HasParts := by
  cases d <;> simp only [WellFormed, HasParts, isIdentifier_iff, isPath_iff]

/-! ## Texts that are read as directives -/

/-- What is read behind a dollar sign is the rest of the text of a directive. -/
theorem ofBound?_eq_some {text : List Char} {d : Directive} (h : ofBound? text = some d) :
    d.WellFormed ∧ '$' :: text = d.body := by
  unfold ofBound? at h
  split at h
  · split at h
    · rename_i hname
      cases h
      exact ⟨by simpa [WellFormed] using hname, by simp [body]⟩
    · cases h
  · rename_i object member hcut
    obtain ⟨method, hmethod, h⟩ := Option.bind_eq_some_iff.mp h
    split at h
    · rename_i hnames
      cases h
      have htext := Text.cut?_eq_some hcut
      rw [Text.stripEnd?_eq_some hmethod] at htext
      constructor
      · simpa [WellFormed] using hnames
      · rw [htext]
        simp [body]
    · cases h

/-- What is read of a text without a dollar sign in front is a directive with that text. -/
theorem ofStatic?_eq_some {text : List Char} {d : Directive} (h : ofStatic? text = some d) :
    d.WellFormed ∧ text = d.body := by
  obtain ⟨⟨path, member⟩, hcut, h⟩ := Option.bind_eq_some_iff.mp h
  have htext := Text.cut?_eq_some hcut
  dsimp only at h
  split at h
  · split at h
    · rename_i hnames
      cases h
      constructor
      · simpa [WellFormed] using hnames
      · rw [htext]
        simp [body]
    · cases h
  · obtain ⟨method, hmethod, h⟩ := Option.bind_eq_some_iff.mp h
    rw [Text.stripEnd?_eq_some hmethod] at htext
    split at h
    · rename_i hnames
      cases h
      constructor
      · simpa [WellFormed] using hnames
      · rw [htext]
        simp [body]
    · cases h

/-- A text is read as a directive exactly if it is the text of the directive, but for the white
space around it. -/
theorem ofText?_eq_some_iff {text : List Char} {d : Directive} :
    ofText? text = some d ↔ d.HasParts ∧ Text.trim text = d.body := by
  constructor
  · intro h
    rw [← wellFormed_iff]
    unfold ofText? at h
    split at h
    · rename_i rest htrim
      rw [htrim]
      exact ofBound?_eq_some h
    · exact ofStatic?_eq_some h
  · rintro ⟨hparts, htrim⟩
    exact (wellFormed_iff.mpr hparts).ofText?_of_trim htrim

end Directive

end TabMarkup
