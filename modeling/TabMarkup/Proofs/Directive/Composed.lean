import TabMarkup.Directive.Parse
import TabMarkup.Proofs.Text.Cut

/-!
# Composed directives

A directive whose names are identifiers and paths is written between `<%=` and `%>` so that it
can be read back: no percent sign is in its text, no white space is around it, and the marks
between its parts stand where its names end (`ofText?_composed`).
-/

namespace TabMarkup

namespace Name

/-- The characters of identifiers are letters, digits and `_`. -/
theorem isIdentifierChar_range {c : Char} (h : isIdentifierChar c = true) :
    (48 ≤ c.toNat ∧ c.toNat ≤ 57) ∨ (65 ≤ c.toNat ∧ c.toNat ≤ 90) ∨ c.toNat = 95 ∨
      (97 ≤ c.toNat ∧ c.toNat ≤ 122) := by
  change (decide (65 ≤ c.val ∧ c.val ≤ 90) || (97 ≤ c.val && c.val ≤ 122) ||
    (48 ≤ c.val && c.val ≤ 57) || c == '_') = true at h
  simp only [Bool.or_eq_true, Bool.and_eq_true, decide_eq_true_eq, beq_iff_eq,
    UInt32.le_iff_toNat_le] at h
  rcases h with ((h | h) | h) | rfl
  · exact Or.inr (Or.inl h)
  · exact Or.inr (Or.inr (Or.inr h))
  · exact Or.inl h
  · exact Or.inr (Or.inr (Or.inl rfl))

theorem isIdentifier_ne_nil {x : List Char} (hx : isIdentifier x = true) : x ≠ [] := by
  rintro rfl
  cases hx

theorem isIdentifierChar_of_mem {x : List Char} (hx : isIdentifier x = true) {c : Char}
    (hc : c ∈ x) : isIdentifierChar c = true := by
  simp only [isIdentifier, Bool.and_eq_true, List.all_eq_true] at hx
  exact hx.2 c hc

/-- Other characters are in no identifier. -/
theorem notMem_of_isIdentifier {x : List Char} (hx : isIdentifier x = true) {c : Char}
    (hc : isIdentifierChar c = false) : c ∉ x := by
  intro hmem
  rw [isIdentifierChar_of_mem hx hmem] at hc
  cases hc

/-- The characters of paths are those of identifiers and the backslash. -/
theorem isIdentifierChar_of_mem_path {p : List Char} (hp : isPath p = true) {c : Char}
    (hc : c ∈ p) : isIdentifierChar c = true ∨ c = '\\' := by
  rw [isPath, List.all_eq_true] at hp
  have hsplit : c ∈ withoutRoot p → isIdentifierChar c = true ∨ c = '\\' := by
    intro hc
    rcases Text.mem_splitOn '\\' hc with rfl | hmem
    · exact Or.inr rfl
    · obtain ⟨u, hu, hcu⟩ := List.mem_flatten.mp hmem
      exact Or.inl (isIdentifierChar_of_mem (hp u hu) hcu)
  by_cases hroot : c = '\\'
  · exact Or.inr hroot
  · apply hsplit
    unfold withoutRoot
    split
    · simpa [hroot] using hc
    · exact hc

/-- Other characters are in no path. -/
theorem notMem_of_isPath {p : List Char} (hp : isPath p = true) {c : Char}
    (hc : isIdentifierChar c = false) (hroot : c ≠ '\\') : c ∉ p := by
  intro hmem
  rcases isIdentifierChar_of_mem_path hp hmem with h | h
  · rw [h] at hc
    cases hc
  · exact hroot h

theorem isPath_ne_nil {p : List Char} (hp : isPath p = true) : p ≠ [] := by
  rintro rfl
  cases hp

end Name

namespace Directive

open Name Text

/-- The names of the directive are identifiers and its paths are paths. -/
def WellFormed : Directive → Prop
  | .value name => isIdentifier name.toList = true
  | .call object method => isIdentifier object.toList = true ∧ isIdentifier method.toList = true
  | .staticCall path method => isPath path.toList = true ∧ isIdentifier method.toList = true
  | .staticProperty path property =>
    isPath path.toList = true ∧ isIdentifier property.toList = true

/-- A character of the text of a well-formed directive. -/
def isBodyChar (c : Char) : Bool :=
  isIdentifierChar c || ['$', '-', '>', ':', '(', ')', '\\'].contains c

theorem isBodyChar_of_isIdentifier {x : List Char} (hx : isIdentifier x = true) :
    ∀ c ∈ x, isBodyChar c = true := by
  intro c hc
  rw [isBodyChar, isIdentifierChar_of_mem hx hc]
  rfl

theorem isBodyChar_of_isPath {p : List Char} (hp : isPath p = true) :
    ∀ c ∈ p, isBodyChar c = true := by
  intro c hc
  rcases isIdentifierChar_of_mem_path hp hc with h | rfl
  · rw [isBodyChar, h]
    rfl
  · rfl

theorem WellFormed.body_chars {d : Directive} (hd : d.WellFormed) :
    ∀ c ∈ d.body, isBodyChar c = true := by
  have hnil : ∀ c ∈ ([] : List Char), isBodyChar c = true := fun c hc => by cases hc
  cases d with
  | value name =>
    exact List.forall_mem_cons.mpr ⟨rfl, isBodyChar_of_isIdentifier hd⟩
  | call object method =>
    obtain ⟨hobject, hmethod⟩ := hd
    simp only [body, List.forall_mem_cons, List.forall_mem_append]
    exact ⟨⟨⟨⟨rfl, isBodyChar_of_isIdentifier hobject⟩, rfl, rfl, hnil⟩,
      isBodyChar_of_isIdentifier hmethod⟩, rfl, rfl, hnil⟩
  | staticCall path method =>
    obtain ⟨hpath, hmethod⟩ := hd
    simp only [body, List.forall_mem_cons, List.forall_mem_append]
    exact ⟨⟨⟨isBodyChar_of_isPath hpath, rfl, rfl, hnil⟩,
      isBodyChar_of_isIdentifier hmethod⟩, rfl, rfl, hnil⟩
  | staticProperty path property =>
    obtain ⟨hpath, hproperty⟩ := hd
    simp only [body, List.forall_mem_cons, List.forall_mem_append]
    exact ⟨⟨isBodyChar_of_isPath hpath, rfl, rfl, rfl, hnil⟩,
      isBodyChar_of_isIdentifier hproperty⟩

/-- No character of the text of a well-formed directive is white space. -/
theorem isBlank_of_isBodyChar {c : Char} (hc : isBodyChar c = true) : isBlank c = false := by
  rcases Bool.or_eq_true_iff.mp hc with hc | hc
  · have hrange := isIdentifierChar_range hc
    simp only [isBlank, Bool.or_eq_false_iff, Bool.and_eq_false_iff, decide_eq_false_iff_not,
      beq_eq_false_iff_ne]
    omega
  · simp only [List.contains_iff_mem, List.mem_cons, List.not_mem_nil, or_false] at hc
    rcases hc with rfl | rfl | rfl | rfl | rfl | rfl | rfl <;> rfl

/-- The text of a well-formed directive is not empty. -/
theorem WellFormed.body_ne_nil {d : Directive} (hd : d.WellFormed) : d.body ≠ [] := by
  cases d with
  | value name => exact List.cons_ne_nil _ _
  | call object method => simp [body]
  | staticCall path method => simp [body]
  | staticProperty path property => simp [body]

theorem WellFormed.percent_notMem {d : Directive} (hd : d.WellFormed) : '%' ∉ d.body := by
  intro hmem
  have := hd.body_chars '%' hmem
  cases this

/-- The white space inside the marks does not count. -/
theorem WellFormed.trim_body {d : Directive} (hd : d.WellFormed) :
    trim ([' '] ++ (d.body ++ [' '])) = d.body := by
  have hspace : ∀ c ∈ [' '], isBlank c = true := List.forall_mem_singleton.mpr rfl
  refine trim_append hspace hspace hd.body_ne_nil ?_ ?_
  · intro c hc
    exact isBlank_of_isBodyChar (hd.body_chars c (List.mem_of_mem_head? hc))
  · intro c hc
    exact isBlank_of_isBodyChar (hd.body_chars c (List.mem_of_getLast? hc))

/-- A name that is bound is read back. -/
theorem ofBound?_value {name : String} (hname : isIdentifier name.toList = true) :
    ofBound? name.toList = some (.value name) := by
  rw [ofBound?, cut?_eq_none (notMem_of_isIdentifier hname rfl)]
  simp [hname]

theorem ofBound?_call {object method : String} (hobject : isIdentifier object.toList = true)
    (hmethod : isIdentifier method.toList = true) :
    ofBound? (object.toList ++ (['-', '>'] ++ (method.toList ++ ['(', ')']))) =
      some (.call object method) := by
  rw [ofBound?, cut?_append (notMem_of_isIdentifier hobject rfl)]
  simp [stripEnd?_append, hobject, hmethod]

/-- A text that begins with a name does not begin with a dollar sign. -/
theorem ne_dollar_cons {x v : List Char} (hne : x ≠ []) (hx : '$' ∉ x) (rest : List Char) :
    x ++ v ≠ '$' :: rest := by
  obtain ⟨c, x, rfl⟩ := List.exists_cons_of_ne_nil hne
  intro heq
  cases heq
  exact hx (by simp)

/-- A method of what a path names is read back. -/
theorem ofStatic?_call {path method : String} (hpath : isPath path.toList = true)
    (hmethod : isIdentifier method.toList = true) :
    ofStatic? (path.toList ++ ([':', ':'] ++ (method.toList ++ ['(', ')']))) =
      some (.staticCall path method) := by
  have hdollar : ∀ rest, method.toList ++ ['(', ')'] ≠ '$' :: rest :=
    ne_dollar_cons (isIdentifier_ne_nil hmethod) (notMem_of_isIdentifier hmethod rfl)
  rw [ofStatic?, cut?_append (notMem_of_isPath hpath rfl (by decide))]
  simp [stripEnd?_append, hpath, hmethod]

theorem ofStatic?_property {path property : String} (hpath : isPath path.toList = true)
    (hproperty : isIdentifier property.toList = true) :
    ofStatic? (path.toList ++ ([':', ':'] ++ ('$' :: property.toList))) =
      some (.staticProperty path property) := by
  rw [ofStatic?, cut?_append (notMem_of_isPath hpath rfl (by decide))]
  simp [hpath, hproperty]

/-- The text of a well-formed directive is read as the directive, with or without white space
around it. -/
theorem WellFormed.ofText?_of_trim {d : Directive} (hd : d.WellFormed) {text : List Char}
    (htext : trim text = d.body) : ofText? text = some d := by
  rw [ofText?, htext]
  cases d with
  | value name => exact ofBound?_value hd
  | call object method =>
    simpa [body] using ofBound?_call hd.1 hd.2
  | staticCall path method =>
    have hdollar := ne_dollar_cons (v := [':', ':'] ++ method.toList ++ ['(', ')'])
      (isPath_ne_nil hd.1) (notMem_of_isPath hd.1 rfl (by decide))
    split
    · rename_i rest heq
      exact absurd (by simpa [body] using heq) (hdollar rest)
    · simpa [body] using ofStatic?_call hd.1 hd.2
  | staticProperty path property =>
    have hdollar := ne_dollar_cons (v := [':', ':', '$'] ++ property.toList)
      (isPath_ne_nil hd.1) (notMem_of_isPath hd.1 rfl (by decide))
    split
    · rename_i rest heq
      exact absurd (by simpa [body] using heq) (hdollar rest)
    · simpa [body] using ofStatic?_property hd.1 hd.2

/-- What stands between the marks of a well-formed directive is read as the directive. -/
theorem WellFormed.ofText?_composed {d : Directive} (hd : d.WellFormed) :
    ofText? ([' '] ++ (d.body ++ [' '])) = some d :=
  hd.ofText?_of_trim hd.trim_body

end Directive

end TabMarkup
