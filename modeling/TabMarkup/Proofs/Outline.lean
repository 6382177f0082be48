import TabMarkup.Outline

/-!
# Nesting by a depth counter

The fragments of a document by a counter and the list of open tags alone: what a line closes, what
it puts out itself and what is open after it. An outline keeps no more open tags than its depth
counts, and so comes to the same fragments.
-/

namespace TabMarkup

namespace Nesting

/-- What an item puts out. -/
def itemFragments : Item → List Fragment
  | .attr text => [.attr text]
  | .directive d => [.rawText " ", .directive d]

/-- What a tag puts out on its own line. -/
def tagFragments (name : String) : TagBody → List Fragment
  | .bare => [.openTag name]
  | .text content => [.openTag name, .rawText content]
  | .items entries => .halfOpenTag name :: (entries.flatMap itemFragments ++ [.rawText ">"])

/-- How many of the open tags a line closes that has `tabs` tabs. -/
def closing (depth : Nat) (opened : List String) (tabs : Nat) : Nat :=
  min opened.length (depth - tabs)

/-- What some lines put out at this depth, inside these open tags, the innermost first. -/
def fragmentsOf : (depth : Nat) → (opened : List String) → List Line → List Fragment
  | _, opened, [] => opened.map .closeTag
  | depth, opened, .blank :: lines => fragmentsOf depth opened lines
  | depth, opened, .directive tabs d :: lines =>
    (opened.take (closing depth opened tabs)).map .closeTag ++ .directive d ::
      fragmentsOf tabs (opened.drop (closing depth opened tabs)) lines
  | depth, opened, .tag tabs _ name body :: lines =>
    (opened.take (closing depth opened tabs)).map .closeTag ++ tagFragments name body ++
      fragmentsOf (tabs + 1) (name :: opened.drop (closing depth opened tabs)) lines

/-- The opening of a tag and what follows it are what the tag puts out. -/
theorem tagFragments_eq (name : String) (body : TagBody) :
    tagFragments name body = body.opening name :: body.fragments := by
  cases body <;> rfl

theorem closing_eq_length {depth tabs : Nat} {opened : List String}
    (h : opened.length ≤ depth - tabs) : closing depth opened tabs = opened.length :=
  Nat.min_eq_left h

theorem closing_eq_sub {depth tabs : Nat} {opened : List String}
    (h : depth - tabs ≤ opened.length) : closing depth opened tabs = depth - tabs :=
  Nat.min_eq_right h

/-- Where a line lies deeper than there are open tags, it closes all of them. -/
theorem take_closing (depth : Nat) (opened : List String) (tabs : Nat) :
    opened.take (closing depth opened tabs) = opened.take (depth - tabs) ∧
      opened.drop (closing depth opened tabs) = opened.drop (depth - tabs) := by
  rcases Nat.le_total opened.length (depth - tabs) with hle | hle
  · rw [closing_eq_length hle, List.take_length, List.drop_length, List.take_of_length_le hle,
      List.drop_of_length_le hle]
    exact ⟨rfl, rfl⟩
  · rw [closing_eq_sub hle]
    exact ⟨rfl, rfl⟩

end Nesting

namespace Line

open Nesting

/-- The indentation of a line, unless it is blank. -/
def tabs? : Line → Option Nat
  | .blank => none
  | .directive tabs _ | .tag tabs _ _ _ => some tabs

/-- The name of the tag that a line opens, if it opens one. -/
def opened : Line → List String
  | .blank | .directive .. => []
  | .tag _ _ name _ => [name]

/-- The line so many rows further down and so many tabs further in. -/
def moved (down inward : Nat) : Line → Line
  | .blank => .blank
  | .directive tabs d => .directive (tabs + inward) d
  | .tag tabs number name body => .tag (tabs + inward) (number + down) name body

/-- What a line puts out itself. -/
def fragments : Line → List Fragment
  | .blank => []
  | .directive _ d => [.directive d]
  | .tag _ _ name body => tagFragments name body

@[simp] theorem tabs?_eq_none {line : Line} : line.tabs? = none ↔ line = .blank := by
  cases line <;> simp [tabs?]

/-- A line that is not blank begins with something other than the end of a tag. -/
theorem exists_fragments {line : Line} {tabs : Nat} (h : line.tabs? = some tabs) :
    ∃ f fs, line.fragments = f :: fs ∧ ∀ name, f ≠ .closeTag name := by
  cases line with
  | blank => cases h
  | directive t d => exact ⟨.directive d, [], rfl, by simp⟩
  | tag t number name body =>
    refine ⟨body.opening name, body.fragments, tagFragments_eq name body, fun name' => ?_⟩
    cases body <;> simp [TagBody.opening]

theorem tabs?_moved (line : Line) (down inward : Nat) :
    (line.moved down inward).tabs? = line.tabs?.map (· + inward) := by
  cases line <;> rfl

@[simp] theorem opened_moved (line : Line) (down inward : Nat) :
    (line.moved down inward).opened = line.opened := by
  cases line <;> rfl

@[simp] theorem fragments_moved (line : Line) (down inward : Nat) :
    (line.moved down inward).fragments = line.fragments := by
  cases line <;> rfl

end Line

namespace Nesting

/-- A line closes what lies deeper, puts out its own fragments, and is then the innermost tag if it
opens one. -/
theorem fragmentsOf_cons {line : Line} {tabs : Nat} (h : line.tabs? = some tabs) (depth : Nat)
    (opened : List String) (lines : List Line) :
    fragmentsOf depth opened (line :: lines) =
      (opened.take (closing depth opened tabs)).map .closeTag ++ line.fragments ++
        fragmentsOf (tabs + line.opened.length)
          (line.opened ++ opened.drop (closing depth opened tabs)) lines := by
  cases line with
  | blank => cases h
  | directive t d =>
    cases h
    simp [fragmentsOf, Line.fragments, Line.opened]
  | tag t number name body =>
    cases h
    simp [fragmentsOf, Line.fragments, Line.opened]

/-- A blank line at the end puts nothing out. -/
theorem fragmentsOf_append_blank (depth : Nat) (opened : List String) (lines : List Line) :
    fragmentsOf depth opened (lines ++ [.blank]) = fragmentsOf depth opened lines := by
  induction lines generalizing depth opened with
  | nil => rfl
  | cons line lines ih =>
    rw [List.cons_append]
    cases h : line.tabs? with
    | none =>
      rw [Line.tabs?_eq_none.mp h]
      exact ih depth opened
    | some tabs => rw [fragmentsOf_cons h, fragmentsOf_cons h, ih]

/-- Where all lines and the depth are moved in alike, the same is put out. -/
theorem fragmentsOf_map_moved (down inward depth : Nat) (opened : List String)
    (lines : List Line) :
    fragmentsOf (depth + inward) opened (lines.map (Line.moved down inward)) =
      fragmentsOf depth opened lines := by
  induction lines generalizing depth opened with
  | nil => rfl
  | cons line lines ih =>
    rw [List.map_cons]
    cases h : line.tabs? with
    | none =>
      rw [Line.tabs?_eq_none.mp h]
      exact ih depth opened
    | some tabs =>
      have hmoved : (line.moved down inward).tabs? = some (tabs + inward) := by
        rw [Line.tabs?_moved, h]
        rfl
      have hclosing : closing (depth + inward) opened (tabs + inward) =
          closing depth opened tabs := by
        rw [closing, closing, Nat.add_sub_add_right]
      rw [fragmentsOf_cons h, fragmentsOf_cons hmoved, hclosing, Line.opened_moved,
        Line.fragments_moved, Nat.add_right_comm, ih]

/-- Lines of which the first that is not blank has no tabs close all that is open. -/
theorem fragmentsOf_of_margin {lines : List Line}
    (hlines : ∀ tabs ∈ lines.findSome? Line.tabs?, tabs = 0) {depth : Nat} {opened : List String}
    (hdepth : opened.length ≤ depth) :
    fragmentsOf depth opened lines = opened.map .closeTag ++ fragmentsOf 0 [] lines := by
  induction lines with
  | nil => simp [fragmentsOf]
  | cons line lines ih =>
    cases h : line.tabs? with
    | none =>
      rw [List.findSome?_cons_of_isNone (by simp [h])] at hlines
      rw [Line.tabs?_eq_none.mp h]
      exact ih hlines
    | some tabs =>
      obtain rfl : tabs = 0 := hlines tabs (by simp [h])
      rw [fragmentsOf_cons h, fragmentsOf_cons h, closing_eq_length hdepth, List.take_length,
        List.drop_length]
      simp

/-- Lines behind which others begin at the margin put out what they do on their own. -/
theorem fragmentsOf_append {rest : List Line}
    (hrest : ∀ tabs ∈ rest.findSome? Line.tabs?, tabs = 0) {depth : Nat} {opened : List String}
    (hdepth : opened.length ≤ depth) (lines : List Line) :
    fragmentsOf depth opened (lines ++ rest) =
      fragmentsOf depth opened lines ++ fragmentsOf 0 [] rest := by
  induction lines generalizing depth opened with
  | nil => exact fragmentsOf_of_margin hrest hdepth
  | cons line lines ih =>
    rw [List.cons_append]
    cases h : line.tabs? with
    | none =>
      rw [Line.tabs?_eq_none.mp h]
      exact ih hdepth
    | some tabs =>
      have hdepth' : (line.opened ++ opened.drop (closing depth opened tabs)).length ≤
          tabs + line.opened.length := by
        rw [List.length_append, List.length_drop, closing]
        omega
      rw [fragmentsOf_cons h, fragmentsOf_cons h, ih hdepth']
      simp only [List.append_assoc]

end Nesting

namespace Outline

open Nesting

/-! ## Going up -/

/-- Going up one level closes the innermost tag, if there is one. -/
theorem closeLevel_eq (o : Outline) :
    o.closeLevel.openTags.names = o.openTags.names.drop 1 ∧
      o.closeLevel.fragments.toList =
        o.fragments.toList ++ (o.openTags.names.take 1).map .closeTag ∧
      o.closeLevel.depth = o.depth - 1 := by
  obtain ⟨depth, ⟨names⟩, queue, events⟩ := o
  cases names with
  | nil => simp [closeLevel, TagStack.pop]
  | cons name names => simp [closeLevel, TagStack.pop, emit, note]

/-- Going up some levels closes as many tags as are open, the innermost first. -/
theorem closeLevels_eq (o : Outline) (levels : Nat) :
    (o.closeLevels levels).openTags.names = o.openTags.names.drop levels ∧
      (o.closeLevels levels).fragments.toList =
        o.fragments.toList ++ (o.openTags.names.take levels).map .closeTag ∧
      (o.closeLevels levels).depth = o.depth - levels := by
  induction levels generalizing o with
  | zero => simp [closeLevels]
  | succ levels ih =>
    obtain ⟨hnames, hfragments, hdepth⟩ := closeLevel_eq o
    obtain ⟨hnames', hfragments', hdepth'⟩ := ih o.closeLevel
    rw [closeLevels]
    refine ⟨?_, ?_, by omega⟩
    · rw [hnames', hnames, List.drop_drop, Nat.add_comm]
    · rw [hfragments', hfragments, hnames, List.append_assoc, ← List.map_append]
      congr 2
      cases o.openTags.names <;> simp

/-- A line with `tabs` tabs closes what lies deeper. -/
theorem indentTo_eq (o : Outline) (tabs : Nat) :
    (o.indentTo tabs).openTags.names =
        o.openTags.names.drop (closing o.depth o.openTags.names tabs) ∧
      (o.indentTo tabs).fragments.toList = o.fragments.toList ++
        (o.openTags.names.take (closing o.depth o.openTags.names tabs)).map .closeTag ∧
      (o.indentTo tabs).depth = tabs := by
  obtain ⟨hnames, hfragments, _⟩ := closeLevels_eq o (o.depth - tabs)
  obtain ⟨htake, hdrop⟩ := take_closing o.depth o.openTags.names tabs
  rw [htake, hdrop]
  exact ⟨hnames, hfragments, rfl⟩

/-! ## Opening -/

theorem checkTag_eq (o : Outline) (number : Nat) (name : String) :
    (o.checkTag number name).openTags = o.openTags ∧
      (o.checkTag number name).fragments = o.fragments ∧
      (o.checkTag number name).depth = o.depth := by
  unfold checkTag
  split <;> exact ⟨rfl, rfl, rfl⟩

/-- An opened tag is the innermost one, one level down. -/
theorem openTag_eq (o : Outline) (number : Nat) (name : String) (opening : Fragment) :
    (o.openTag number name opening).openTags.names = name :: o.openTags.names ∧
      (o.openTag number name opening).fragments.toList = o.fragments.toList ++ [opening] ∧
      (o.openTag number name opening).depth = o.depth + 1 := by
  obtain ⟨htags, hfragments, hdepth⟩ := checkTag_eq o number name
  simp [openTag, note, emit, TagStack.push, htags, hfragments, hdepth]

/-! ## Lines -/

/-- A line does to an outline what it says: it closes what lies deeper, puts out its own fragments,
and is then the innermost tag if it opens one. -/
theorem add_eq (o : Outline) {line : Line} {tabs : Nat} (h : line.tabs? = some tabs) :
    (o.add line).openTags.names =
        line.opened ++ o.openTags.names.drop (closing o.depth o.openTags.names tabs) ∧
      (o.add line).fragments.toList = o.fragments.toList ++
        (o.openTags.names.take (closing o.depth o.openTags.names tabs)).map .closeTag ++
          line.fragments ∧
      (o.add line).depth = tabs + line.opened.length := by
  cases line with
  | blank => cases h
  | directive t d =>
    cases h
    obtain ⟨hnames, hfragments, hdepth⟩ := indentTo_eq o tabs
    simp [add, emit, Line.opened, Line.fragments, hnames, hfragments, hdepth]
  | tag t number name body =>
    cases h
    obtain ⟨hnames, hfragments, hdepth⟩ := indentTo_eq o tabs
    obtain ⟨hnames', hfragments', hdepth'⟩ :=
      openTag_eq (o.indentTo tabs) number name (body.opening name)
    simp [add, emit, Line.opened, Line.fragments, tagFragments_eq, hnames, hfragments, hdepth,
      hnames', hfragments', hdepth']

/-- No more tags are open than the depth counts. -/
def Bounded (o : Outline) : Prop :=
  o.openTags.names.length ≤ o.depth

/-- What lies deeper than a line is closed by it, so it leaves no more tags open than it has
tabs and opens one itself. -/
theorem Bounded.add {o : Outline} (ho : o.Bounded) (line : Line) : (o.add line).Bounded := by
  cases h : line.tabs? with
  | none =>
    rw [Line.tabs?_eq_none.mp h]
    exact ho
  | some tabs =>
    obtain ⟨hnames, _, hdepth⟩ := add_eq o h
    unfold Bounded at ho ⊢
    rw [hnames, hdepth, List.length_append, List.length_drop, closing]
    omega

theorem Bounded.foldl_add {o : Outline} (ho : o.Bounded) (lines : List Line) :
    (lines.foldl Outline.add o).Bounded := by
  induction lines generalizing o with
  | nil => exact ho
  | cons line lines ih => exact ih (ho.add line)

theorem bounded_empty : Bounded {} :=
  Nat.le_refl 0

theorem bounded_ofLines (lines : List Line) : (ofLines lines).Bounded :=
  bounded_empty.foldl_add lines

/-! ## Whole documents -/

/-- At its end an outline closes all that is open. -/
theorem Bounded.finish_eq {o : Outline} (ho : o.Bounded) :
    o.finish.fragments.toList = o.fragments.toList ++ o.openTags.names.map .closeTag := by
  obtain ⟨_, hfragments, _⟩ := indentTo_eq o 0
  rw [finish, hfragments, closing_eq_length ho, List.take_length]

/-- An outline with more lines puts out what the counter says. -/
theorem finish_foldl_add (lines : List Line) {o : Outline} (ho : o.Bounded) :
    (lines.foldl add o).finish.fragments.toList =
      o.fragments.toList ++ fragmentsOf o.depth o.openTags.names lines := by
  induction lines generalizing o with
  | nil => exact ho.finish_eq
  | cons line lines ih =>
    rw [List.foldl_cons, ih (ho.add line)]
    cases h : line.tabs? with
    | none =>
      rw [Line.tabs?_eq_none.mp h]
      rfl
    | some tabs =>
      obtain ⟨hnames, hfragments, hdepth⟩ := add_eq o h
      rw [fragmentsOf_cons h, hnames, hfragments, hdepth]
      simp only [List.append_assoc]

/-- The outline of some lines puts out what the counter says, from depth 0 and no open tags. -/
theorem finish_ofLines (lines : List Line) :
    (ofLines lines).finish.fragments.toList = fragmentsOf 0 [] lines :=
  finish_foldl_add lines bounded_empty

theorem ofLines_append (before rest : List Line) :
    ofLines (before ++ rest) = rest.foldl add (ofLines before) :=
  List.foldl_append

/-- A blank line among the others leaves the outline as it is. -/
theorem ofLines_insert_blank (before rest : List Line) :
    ofLines (before ++ .blank :: rest) = ofLines (before ++ rest) := by
  rw [ofLines_append, ofLines_append]
  rfl

/-- What lines put out is what an outline has put out at some of them, and what the others put
out. -/
theorem fragmentsOf_eq_append (before rest : List Line) :
    fragmentsOf 0 [] (before ++ rest) = (ofLines before).fragments.toList ++
      fragmentsOf (ofLines before).depth (ofLines before).openTags.names rest := by
  rw [← finish_ofLines, ofLines_append, finish_foldl_add rest (bounded_ofLines before)]

end Outline

end TabMarkup
