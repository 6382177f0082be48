import TabMarkup.Proofs.Elements

/-!
# The tree that indentation shows

Where no line is more than one tab deeper than the tag before it, a line with some tabs stands
inside as many elements, each that of the nearest tag line with fewer tabs by one more than the next
(`Rooted.append`). An element stays open as long as the lines are deeper than its own
(`Rooted.keeps`).
-/

namespace TabMarkup

open Nesting

/-- Each line that is not blank has no more tabs than are allowed where it stands. Behind a tag, one
tab more than its own is allowed, and behind a directive as many as it has. -/
def WellIndented : (allowed : Nat) → List Line → Prop
  | _, [] => True
  | allowed, .blank :: lines => WellIndented allowed lines
  | allowed, .directive tabs _ :: lines => tabs ≤ allowed ∧ WellIndented tabs lines
  | allowed, .tag tabs _ _ _ :: lines => tabs ≤ allowed ∧ WellIndented (tabs + 1) lines

/-- The number of fragments before the own ones of a line with so many tabs, behind other lines. -/
def placeBehind (before : List Line) (tabs : Nat) : Nat :=
  ((Outline.ofLines before).indentTo tabs).fragments.size

/-- The element is that of the nearest tag line with so many tabs. -/
def NearestTag (before : List Line) (tabs : Nat) (e : Opening) : Prop :=
  ∃ front number name body between, before = front ++ .tag tabs number name body :: between ∧
    (∀ number' name' body', .tag tabs number' name' body' ∉ between) ∧
    e = ⟨placeBehind front tabs, name⟩

/-! ## Allowed lines -/

/-- What a line allows is counted by what it opens. -/
theorem wellIndented_cons {allowed tabs : Nat} {line : Line} {lines : List Line}
    (h : line.tabs? = some tabs) :
    WellIndented allowed (line :: lines) ↔
      tabs ≤ allowed ∧ WellIndented (tabs + line.opened.length) lines := by
  cases line with
  | blank => cases h
  | directive t d =>
    cases h
    rfl
  | tag t number name body =>
    cases h
    rfl

namespace WellIndented

theorem tail {o : Outline} {line : Line} {lines : List Line}
    (h : WellIndented o.depth (line :: lines)) : WellIndented (o.add line).depth lines := by
  cases htabs : line.tabs? with
  | none =>
    rw [Line.tabs?_eq_none.mp htabs] at h ⊢
    exact h
  | some tabs =>
    obtain ⟨_, _, hdepth⟩ := o.add_eq htabs
    rw [hdepth]
    exact ((wellIndented_cons htabs).mp h).2

/-- What is allowed behind some lines is what the depth is there. -/
theorem of_append {o : Outline} {before rest : List Line}
    (h : WellIndented o.depth (before ++ rest)) :
    WellIndented (before.foldl Outline.add o).depth rest := by
  induction before generalizing o with
  | nil => exact h
  | cons line before ih => exact ih h.tail

theorem left {allowed : Nat} {before rest : List Line} (h : WellIndented allowed (before ++ rest)) :
    WellIndented allowed before := by
  induction before generalizing allowed with
  | nil => trivial
  | cons line before ih =>
    rw [List.cons_append] at h
    cases htabs : line.tabs? with
    | none =>
      rw [Line.tabs?_eq_none.mp htabs] at h ⊢
      exact ih h
    | some tabs =>
      obtain ⟨hle, hrest⟩ := (wellIndented_cons htabs).mp h
      exact (wellIndented_cons htabs).mpr ⟨hle, ih hrest⟩

end WellIndented

/-! ## Open elements of outlines -/

namespace Outline

/-- The elements that are open at the end of what an outline has put out. -/
def elements (o : Outline) : List Opening :=
  openElements o.fragments.toList

theorem elements_indentTo (o : Outline) (tabs : Nat) :
    (o.indentTo tabs).elements = o.elements.drop (closing o.depth o.openTags.names tabs) := by
  obtain ⟨_, hfragments, _⟩ := indentTo_eq o tabs
  have hlength : (o.openTags.names.take (closing o.depth o.openTags.names tabs)).length =
      closing o.depth o.openTags.names tabs := by
    rw [List.length_take]
    exact Nat.min_eq_left (Nat.min_le_left _ _)
  rw [elements, hfragments, openElements_closed, hlength]
  rfl

theorem toList_add (o : Outline) {line : Line} {tabs : Nat} (h : line.tabs? = some tabs) :
    (o.add line).fragments.toList = (o.indentTo tabs).fragments.toList ++ line.fragments := by
  obtain ⟨_, hadd, _⟩ := add_eq o h
  obtain ⟨_, hindent, _⟩ := indentTo_eq o tabs
  rw [hadd, hindent]

/-- A line closes elements as it closes tags, and opens its own at the place of its fragments. -/
theorem elements_add (o : Outline) {line : Line} {tabs : Nat} (h : line.tabs? = some tabs) :
    (o.add line).elements =
      line.opened.map (Opening.mk (o.indentTo tabs).fragments.size) ++
        o.elements.drop (closing o.depth o.openTags.names tabs) := by
  have hown : ∃ f fs, line.fragments = f :: fs ∧ ∀ name, f ≠ .closeTag name :=
    Line.exists_fragments h
  have hpos : 0 < line.fragments.length := by
    obtain ⟨f, fs, hf, _⟩ := hown
    rw [hf]
    exact Nat.zero_lt_succ _
  have hall := elementsFrom_take_fragments line (o.indentTo tabs).fragments.size
    (o.indentTo tabs).elements hpos
  rw [List.take_length, elements_indentTo] at hall
  rw [elements, toList_add o h, openElements_append]
  rw [← elements_indentTo] at hall ⊢
  exact hall

end Outline

/-! ## The nearest tags -/

/-- A line that is not a tag with as many tabs does not change which is the nearest. -/
theorem NearestTag.concat {before : List Line} {tabs : Nat} {e : Opening}
    (h : NearestTag before tabs e) {line : Line}
    (hline : ∀ number name body, line ≠ .tag tabs number name body) :
    NearestTag (before ++ [line]) tabs e := by
  obtain ⟨front, number, name, body, between, rfl, hbetween, he⟩ := h
  refine ⟨front, number, name, body, between ++ [line], by simp, ?_, he⟩
  intro number' name' body' hmem
  rcases List.mem_append.mp hmem with hmem | hmem
  · exact hbetween number' name' body' hmem
  · exact hline number' name' body' (List.mem_singleton.mp hmem).symm

/-- Behind these lines as many elements are open as the depth counts, and each is that of the
nearest tag line with as many tabs as there are elements around it. -/
structure Rooted (before : List Line) : Prop where
  names_eq : (Outline.ofLines before).openTags.names =
    (Outline.ofLines before).elements.map (·.name)
  length_eq : (Outline.ofLines before).elements.length = (Outline.ofLines before).depth
  nearest : ∀ inner e outer, (Outline.ofLines before).elements = inner ++ e :: outer →
    NearestTag before outer.length e

namespace Rooted

theorem nil : Rooted [] :=
  ⟨rfl, rfl, fun inner e outer h => by cases inner <;> cases h⟩

variable {before : List Line}

/-- With a tag open for each level, a line closes one tag for each level that it is above. -/
theorem closing_eq (h : Rooted before) (tabs : Nat) :
    closing (Outline.ofLines before).depth (Outline.ofLines before).openTags.names tabs =
      (Outline.ofLines before).depth - tabs := by
  apply closing_eq_sub
  rw [h.names_eq, List.length_map, h.length_eq]
  exact Nat.sub_le _ _

/-- A line that is not too deep stands inside as many elements as it has tabs. -/
theorem length_indentTo (h : Rooted before) {tabs : Nat}
    (htabs : tabs ≤ (Outline.ofLines before).depth) :
    ((Outline.ofLines before).indentTo tabs).elements.length = tabs := by
  rw [Outline.elements_indentTo, h.closing_eq, List.length_drop, h.length_eq]
  omega

/-- The elements that a line stands inside are those of the nearest tag lines before it. -/
theorem nearest_indentTo (h : Rooted before) {tabs : Nat} {inner outer : List Opening}
    {e : Opening}
    (hopen : ((Outline.ofLines before).indentTo tabs).elements = inner ++ e :: outer) :
    NearestTag before outer.length e := by
  rw [Outline.elements_indentTo] at hopen
  apply h.nearest (_ ++ inner) e outer
  rw [List.append_assoc, ← hopen, List.take_append_drop]

/-- They are the nearest of their kind behind the line too, since the line has more tabs. -/
theorem nearest_concat (h : Rooted before) {line : Line} {tabs : Nat}
    (htabs : line.tabs? = some tabs) (hle : tabs ≤ (Outline.ofLines before).depth)
    {inner outer : List Opening} {e : Opening}
    (hopen : ((Outline.ofLines before).indentTo tabs).elements = inner ++ e :: outer) :
    NearestTag (before ++ [line]) outer.length e := by
  have hlt : outer.length < tabs := by
    have hlength := h.length_indentTo hle
    rw [hopen, List.length_append, List.length_cons] at hlength
    omega
  apply (h.nearest_indentTo hopen).concat
  rintro number name body rfl
  cases htabs
  exact Nat.lt_irrefl _ hlt

/-- One more line that is not too deep. -/
theorem add (h : Rooted before) {line : Line}
    (hline : ∀ tabs ∈ line.tabs?, tabs ≤ (Outline.ofLines before).depth) :
    Rooted (before ++ [line]) := by
  have hofLines : Outline.ofLines (before ++ [line]) = (Outline.ofLines before).add line :=
    Outline.ofLines_append before [line]
  cases htabs : line.tabs? with
  | none =>
    obtain rfl := Line.tabs?_eq_none.mp htabs
    have hsame : Outline.ofLines (before ++ [.blank]) = Outline.ofLines before := hofLines
    refine ⟨by rw [hsame, h.names_eq], by rw [hsame, h.length_eq], fun inner e outer hopen => ?_⟩
    rw [hsame] at hopen
    exact (h.nearest inner e outer hopen).concat (by simp)
  | some tabs =>
    have hle : tabs ≤ (Outline.ofLines before).depth := hline tabs htabs
    have hlength := h.length_indentTo hle
    obtain ⟨hnames, _, hdepth⟩ := (Outline.ofLines before).add_eq htabs
    have helements := (Outline.ofLines before).elements_add htabs
    rw [← Outline.elements_indentTo] at helements
    refine ⟨?_, ?_, fun inner e outer hopen => ?_⟩
    · rw [hofLines, hnames, helements, Outline.elements_indentTo, h.names_eq, List.map_append,
        List.map_drop, List.map_map]
      congr 1
      exact (List.map_id _).symm
    · rw [hofLines, hdepth, helements, List.length_append, List.length_map, hlength, Nat.add_comm]
    · rw [hofLines, helements] at hopen
      cases line with
      | blank => cases htabs
      | directive t d => exact h.nearest_concat htabs hle hopen
      | tag t number name body =>
        cases htabs
        have hopen' : ⟨placeBehind before tabs, name⟩ ::
            ((Outline.ofLines before).indentTo tabs).elements = inner ++ e :: outer := hopen
        cases inner with
        | nil =>
          -- The line's own element, inside as many as it has tabs.
          obtain ⟨rfl, rfl⟩ := List.cons.inj hopen'
          rw [hlength]
          exact ⟨before, number, name, body, [], rfl, by simp, rfl⟩
        | cons first inner => exact h.nearest_concat rfl hle (List.cons.inj hopen').2

/-- A line in front of others of which none is too deep. -/
theorem step (h : Rooted before) {line : Line} {rest : List Line}
    (hrest : WellIndented (Outline.ofLines before).depth (line :: rest)) :
    Rooted (before ++ [line]) ∧
      WellIndented (Outline.ofLines (before ++ [line])).depth rest := by
  have hline : ∀ tabs ∈ line.tabs?, tabs ≤ (Outline.ofLines before).depth := fun tabs htabs =>
    ((wellIndented_cons htabs).mp hrest).1
  refine ⟨h.add hline, ?_⟩
  rw [Outline.ofLines_append]
  exact hrest.tail

/-- More lines of which none is too deep. -/
theorem append {rest : List Line} (h : Rooted before)
    (hrest : WellIndented (Outline.ofLines before).depth rest) : Rooted (before ++ rest) := by
  induction rest generalizing before with
  | nil => rwa [List.append_nil]
  | cons line rest ih =>
    obtain ⟨hline, hrest⟩ := h.step hrest
    have hall := ih hline hrest
    rwa [List.append_assoc] at hall

/-- A line that is deeper than some elements are many leaves these open. -/
theorem keeps_add (h : Rooted before) {line : Line} {inner outer : List Opening}
    (hopen : (Outline.ofLines before).elements = inner ++ outer)
    (hdeep : ∀ tabs ∈ line.tabs?, outer.length ≤ tabs) :
    ∃ inner', (Outline.ofLines (before ++ [line])).elements = inner' ++ outer := by
  rw [Outline.ofLines_append, List.foldl_cons, List.foldl_nil]
  cases htabs : line.tabs? with
  | none =>
    rw [Line.tabs?_eq_none.mp htabs]
    exact ⟨inner, hopen⟩
  | some tabs =>
    have hdeeper : outer.length ≤ tabs := hdeep tabs htabs
    have hlength : inner.length + outer.length = (Outline.ofLines before).depth := by
      rw [← h.length_eq, hopen, List.length_append]
    rw [Outline.elements_add _ htabs, h.closing_eq, hopen,
      List.drop_append_of_le_length (by omega), ← List.append_assoc]
    exact ⟨_, rfl⟩

/-- Lines that are deeper than some elements are many leave these open. -/
theorem keeps {rest : List Line} (h : Rooted before)
    (hrest : WellIndented (Outline.ofLines before).depth rest) {inner outer : List Opening}
    (hopen : (Outline.ofLines before).elements = inner ++ outer)
    (hdeep : ∀ line ∈ rest, ∀ tabs ∈ line.tabs?, outer.length ≤ tabs) :
    ∃ inner', (Outline.ofLines (before ++ rest)).elements = inner' ++ outer := by
  induction rest generalizing before inner with
  | nil =>
    rw [List.append_nil]
    exact ⟨inner, hopen⟩
  | cons line rest ih =>
    obtain ⟨hline, hothers⟩ := List.forall_mem_cons.mp hdeep
    obtain ⟨inner', hopen'⟩ := h.keeps_add hopen hline
    obtain ⟨hrooted, hrest⟩ := h.step hrest
    have hall := ih hrooted hrest hopen' hothers
    rwa [List.append_assoc] at hall

end Rooted

/-- Lines of which none is too deep. -/
theorem WellIndented.rooted {lines : List Line} (h : WellIndented 0 lines) : Rooted lines :=
  Rooted.nil.append h

end TabMarkup
