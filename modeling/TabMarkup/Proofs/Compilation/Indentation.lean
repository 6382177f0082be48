import Mathlib.Control.Monad.Basic
import TabMarkup.Proofs.Compilation.Grammar
import TabMarkup.Proofs.Indentation

/-!
# Elements are nested as lines are indented

In a source that compiles and whose lines are well indented, the fragments of a line stand inside
the elements of the tag lines that its indentation shows to be around it, and an element is closed
before the first line that is not deeper than its own (`indentationTree_of_compile`). An outline
counts depths only; what ties the counter to the lines is that each open element is the one of the
nearest tag line with as many tabs as there are elements around it.
-/

namespace TabMarkup

open Nesting

/-- The line is blank or has more tabs. -/
def Line.DeeperThan (tabs : Nat) (line : Line) : Prop :=
  ∀ tabs' ∈ line.tabs?, tabs < tabs'

/-- The own fragments of all these lines stand before the place. -/
def PutOutBefore (lines : List Line) (place : Nat) : Prop :=
  ∀ before line after tabs, lines = before ++ line :: after → line.tabs? = some tabs →
    placeBehind before tabs + line.fragments.length ≤ place

/-- The own fragments of a line with so many tabs, behind other lines, stand inside these elements;
those behind the first one stand inside the line's own element too, if it is a tag. -/
structure StandsInside (fs : List Fragment) (before : List Line) (line : Line) (tabs : Nat)
    (outer : List Opening) : Prop where
  own : line.fragments <+: fs.drop (placeBehind before tabs)
  open_first : openElements (fs.take (placeBehind before tabs)) = outer
  open_next : ∀ k, 0 < k → k ≤ line.fragments.length →
    openElements (fs.take (placeBehind before tabs + k)) =
      line.opened.map (Opening.mk (placeBehind before tabs)) ++ outer
  length_eq : outer.length = tabs
  nearest : ∀ e ∈ outer.head?, NearestTag before (tabs - 1) e

/-- The place lies before the own fragments of the first later line that is not deeper, and behind
those of all lines before that one. If there is none it lies behind those of all lines, among the
closing tags at the end. -/
structure LiesBehind (fs : List Fragment) (before : List Line) (line : Line) (tabs : Nat)
    (after : List Line) (place : Nat) : Prop where
  next : ∀ between next rest tabs', after = between ++ next :: rest →
    (∀ l ∈ between, l.DeeperThan tabs) → next.tabs? = some tabs' → tabs' ≤ tabs →
    PutOutBefore (before ++ line :: between) place ∧
      place < placeBehind (before ++ line :: between) tabs'
  last : (∀ l ∈ after, l.DeeperThan tabs) → PutOutBefore (before ++ line :: after) place ∧
    ∀ f ∈ fs.drop place, ∃ name, f = .closeTag name

/-! ## Places -/

namespace Outline

/-- What was put out stays. -/
theorem size_le_foldl_add (o : Outline) (lines : List Line) :
    o.fragments.size ≤ (lines.foldl add o).fragments.size := by
  induction lines generalizing o with
  | nil => exact Nat.le_refl _
  | cons line lines ih =>
    have hstep : o.fragments.size ≤ (o.add line).fragments.size := by
      cases htabs : line.tabs? with
      | none =>
        rw [Line.tabs?_eq_none.mp htabs]
        exact Nat.le_refl _
      | some tabs =>
        obtain ⟨_, hfragments, _⟩ := o.add_eq htabs
        have hlength := congrArg List.length hfragments
        rw [List.append_assoc, List.length_append] at hlength
        exact Nat.le.intro hlength.symm
    exact Nat.le_trans hstep (ih (o.add line))

/-- What lines put out, with the fragments of one of them at their place. -/
theorem fragmentsOf_eq_append_cons (before : List Line) {line : Line} {tabs : Nat}
    (h : line.tabs? = some tabs) (after : List Line) :
    ∃ rest, fragmentsOf 0 [] (before ++ line :: after) =
      ((ofLines before).indentTo tabs).fragments.toList ++ (line.fragments ++ rest) := by
  obtain ⟨_, hfragments, _⟩ := (ofLines before).indentTo_eq tabs
  rw [fragmentsOf_eq_append, fragmentsOf_cons h, hfragments]
  simp only [List.append_assoc]
  exact ⟨_, rfl⟩

end Outline

/-- All lines have put out their fragments when an outline has them all. -/
theorem putOutBefore_of_size_le {lines : List Line} {place : Nat}
    (h : (Outline.ofLines lines).fragments.size ≤ place) : PutOutBefore lines place := by
  rintro before line after tabs rfl htabs
  have hadd := congrArg List.length ((Outline.ofLines before).toList_add htabs)
  rw [List.length_append] at hadd
  have hle := ((Outline.ofLines before).add line).size_le_foldl_add after
  rw [Outline.ofLines_append] at h
  calc placeBehind before tabs + line.fragments.length
      = ((Outline.ofLines before).add line).fragments.size := hadd.symm
    _ ≤ place := Nat.le_trans hle h

theorem Line.deeperThan_or (line : Line) (tabs : Nat) :
    line.DeeperThan tabs ∨ ∃ tabs', line.tabs? = some tabs' ∧ tabs' ≤ tabs := by
  unfold DeeperThan
  cases line.tabs? with
  | none => exact Or.inl (by simp)
  | some tabs' =>
    rcases Nat.lt_or_ge tabs tabs' with hlt | hle
    · exact Or.inl (by simpa using hlt)
    · exact Or.inr ⟨tabs', rfl, hle⟩

/-- Of some lines either all are deeper, or there is a first one that is not. -/
theorem deeper_or_first (tabs : Nat) (lines : List Line) :
    (∀ l ∈ lines, l.DeeperThan tabs) ∨
      ∃ between next rest tabs', lines = between ++ next :: rest ∧
        (∀ l ∈ between, l.DeeperThan tabs) ∧ next.tabs? = some tabs' ∧ tabs' ≤ tabs := by
  induction lines with
  | nil => exact Or.inl (by simp)
  | cons line lines ih =>
    rcases line.deeperThan_or tabs with hline | ⟨tabs', htabs', hle⟩
    · rcases ih with hall | ⟨between, next, rest, tabs', rfl, hbetween, hnext⟩
      · exact Or.inl (List.forall_mem_cons.mpr ⟨hline, hall⟩)
      · exact Or.inr ⟨line :: between, next, rest, tabs', rfl,
          List.forall_mem_cons.mpr ⟨hline, hbetween⟩, hnext⟩
    · exact Or.inr ⟨[], line, lines, tabs', rfl, by simp, htabs', hle⟩

namespace Rooted

variable {before : List Line}

/-- The place of a line is behind one closing tag for each level that it is above. -/
theorem placeBehind_eq (h : Rooted before) (tabs : Nat) :
    placeBehind before tabs = (Outline.ofLines before).fragments.size +
      ((Outline.ofLines before).depth - tabs) := by
  obtain ⟨_, hfragments, _⟩ := (Outline.ofLines before).indentTo_eq tabs
  have hlength := congrArg List.length hfragments
  rw [h.closing_eq, List.length_append, List.length_map, List.length_take, h.names_eq,
    List.length_map, h.length_eq, Nat.min_eq_left (Nat.sub_le _ _)] at hlength
  exact hlength

/-- The closing tag of an open element is as far behind as the element is out. -/
theorem closes (h : Rooted before) {inner outer : List Opening} {e : Opening}
    (hopen : (Outline.ofLines before).elements = inner ++ e :: outer) {levels : Nat}
    (hlevels : inner.length < levels) (rest : List Fragment) :
    Closes ((Outline.ofLines before).fragments.toList ++
        ((Outline.ofLines before).openTags.names.take levels).map .closeTag ++ rest) e
      ((Outline.ofLines before).fragments.size + inner.length) := by
  have hname : ((Outline.ofLines before).openTags.names.take levels)[inner.length]? =
      some e.name := by
    rw [List.getElem?_take_of_lt hlevels, h.names_eq, hopen]
    simp
  exact closes_of_openElements hopen hname rest

/-- The element of a tag line is open behind it, inside as many elements as the line has tabs. -/
theorem elements_tag (h : Rooted before) {tabs number : Nat} {name : String} {body : TagBody}
    (htabs : tabs ≤ (Outline.ofLines before).depth) :
    ∃ outer, outer.length = tabs ∧
      (Outline.ofLines (before ++ [.tag tabs number name body])).elements =
        ⟨placeBehind before tabs, name⟩ :: outer := by
  have htag : (Line.tag tabs number name body).tabs? = some tabs := rfl
  refine ⟨_, h.length_indentTo htabs, ?_⟩
  rw [Outline.ofLines_append, Outline.elements_indentTo]
  exact (Outline.ofLines before).elements_add htag

end Rooted

/-! ## Lines of a well-indented source -/

section

variable {before after : List Line} {line : Line} {tabs : Nat}

theorem WellIndented.le_depth (h : WellIndented 0 (before ++ line :: after))
    (htabs : line.tabs? = some tabs) : tabs ≤ (Outline.ofLines before).depth := by
  have hrest : WellIndented (Outline.ofLines before).depth (line :: after) :=
    WellIndented.of_append (o := {}) h
  exact ((wellIndented_cons htabs).mp hrest).1

/-- The fragments of a line stand inside the elements that its indentation shows. -/
theorem standsInside (h : WellIndented 0 (before ++ line :: after))
    (htabs : line.tabs? = some tabs) :
    StandsInside (fragmentsOf 0 [] (before ++ line :: after)) before line tabs
      ((Outline.ofLines before).indentTo tabs).elements := by
  have hrooted : Rooted before := h.left.rooted
  have hle : tabs ≤ (Outline.ofLines before).depth := h.le_depth htabs
  obtain ⟨rest, hfragments⟩ := Outline.fragmentsOf_eq_append_cons before htabs after
  have hplace : placeBehind before tabs =
      ((Outline.ofLines before).indentTo tabs).fragments.toList.length := rfl
  rw [hfragments]
  constructor
  case own =>
    rw [hplace, List.drop_left]
    exact List.prefix_append _ _
  case open_first =>
    rw [hplace, List.take_left]
    rfl
  case open_next =>
    intro k hpos hk
    rw [hplace, List.take_length_add_append, List.take_append_of_le_length hk, openElements_append]
    exact elementsFrom_take_fragments line _ _ hpos
  case length_eq => exact hrooted.length_indentTo hle
  case nearest =>
    intro e he
    obtain ⟨outer, houter⟩ : ∃ outer,
        ((Outline.ofLines before).indentTo tabs).elements = [] ++ e :: outer :=
      List.head?_eq_some_iff.mp he
    have hlength := hrooted.length_indentTo hle
    rw [houter, List.nil_append, List.length_cons] at hlength
    rw [← hlength, Nat.add_sub_cancel]
    exact hrooted.nearest_indentTo houter

variable {number : Nat} {name : String} {body : TagBody}

/-- While the lines behind a tag line are deeper, its element is open inside as many as it has
tabs. -/
theorem elements_behind_tag {between : List Line}
    (h : WellIndented 0 (before ++ .tag tabs number name body :: between))
    (hbetween : ∀ l ∈ between, l.DeeperThan tabs) :
    ∃ inner outer, outer.length = tabs ∧
      (Outline.ofLines (before ++ .tag tabs number name body :: between)).elements =
        inner ++ ⟨placeBehind before tabs, name⟩ :: outer := by
  have hrooted : Rooted before := h.left.rooted
  have hle : tabs ≤ (Outline.ofLines before).depth := h.le_depth rfl
  obtain ⟨outer, houter, hopen⟩ :
      ∃ outer, outer.length = tabs ∧
        (Outline.ofLines (before ++ [.tag tabs number name body])).elements =
          [] ++ ⟨placeBehind before tabs, name⟩ :: outer :=
    hrooted.elements_tag hle
  rw [List.append_cons] at h ⊢
  have hdeep : ∀ l ∈ between, ∀ tabs' ∈ l.tabs?,
      (⟨placeBehind before tabs, name⟩ :: outer : List Opening).length ≤ tabs' := by
    intro l hl tabs' htabs'
    rw [List.length_cons, houter]
    exact hbetween l hl tabs' htabs'
  obtain ⟨inner, hinner⟩ :=
    h.left.rooted.keeps (WellIndented.of_append (o := {}) h) hopen hdeep
  exact ⟨inner, outer, houter, hinner⟩

/-- An element is closed before the first later line that is not deeper, and behind all lines before
that one. -/
theorem closes_next {between rest : List Line} {next : Line} {tabs' : Nat}
    (h : WellIndented 0 (before ++ .tag tabs number name body :: (between ++ next :: rest)))
    (hbetween : ∀ l ∈ between, l.DeeperThan tabs) (hnext : next.tabs? = some tabs')
    (hle : tabs' ≤ tabs) :
    ∃ place, Closes
        (fragmentsOf 0 [] (before ++ .tag tabs number name body :: (between ++ next :: rest)))
        ⟨placeBehind before tabs, name⟩ place ∧
      PutOutBefore (before ++ .tag tabs number name body :: between) place ∧
      place < placeBehind (before ++ .tag tabs number name body :: between) tabs' := by
  have hsplit : before ++ .tag tabs number name body :: (between ++ next :: rest) =
      (before ++ .tag tabs number name body :: between) ++ next :: rest := by
    simp
  rw [hsplit] at h ⊢
  obtain ⟨inner, outer, houter, hopen⟩ := elements_behind_tag h.left hbetween
  generalize before ++ .tag tabs number name body :: between = front at h hopen ⊢
  have hrooted : Rooted front := h.left.rooted
  have hlevels : inner.length < (Outline.ofLines front).depth - tabs' := by
    rw [← hrooted.length_eq, hopen, List.length_append, List.length_cons, houter]
    omega
  have hcloses := hrooted.closes hopen hlevels
  refine ⟨(Outline.ofLines front).fragments.size + inner.length, ?_,
    putOutBefore_of_size_le (Nat.le_add_right _ _), ?_⟩
  · rw [Outline.fragmentsOf_eq_append, fragmentsOf_cons hnext, hrooted.closing_eq,
      List.append_assoc, ← List.append_assoc]
    exact hcloses _
  · rw [hrooted.placeBehind_eq]
    exact Nat.add_lt_add_left hlevels _

/-- An element behind whose tag line all lines are deeper is closed behind all lines. -/
theorem closes_last (h : WellIndented 0 (before ++ .tag tabs number name body :: after))
    (hafter : ∀ l ∈ after, l.DeeperThan tabs) :
    ∃ place, Closes (fragmentsOf 0 [] (before ++ .tag tabs number name body :: after))
        ⟨placeBehind before tabs, name⟩ place ∧
      PutOutBefore (before ++ .tag tabs number name body :: after) place ∧
      ∀ f ∈ (fragmentsOf 0 [] (before ++ .tag tabs number name body :: after)).drop place,
        ∃ name', f = .closeTag name' := by
  obtain ⟨inner, outer, _, hopen⟩ := elements_behind_tag h hafter
  generalize before ++ .tag tabs number name body :: after = lines at h hopen ⊢
  have hrooted : Rooted lines := h.rooted
  have hlevels : inner.length < (Outline.ofLines lines).openTags.names.length := by
    rw [hrooted.names_eq, hopen, List.length_map, List.length_append, List.length_cons]
    omega
  have hcloses := hrooted.closes hopen hlevels []
  rw [List.take_length, List.append_nil] at hcloses
  have hfragments : fragmentsOf 0 [] lines = (Outline.ofLines lines).fragments.toList ++
      (Outline.ofLines lines).openTags.names.map .closeTag := by
    have happend := Outline.fragmentsOf_eq_append lines []
    rwa [List.append_nil] at happend
  refine ⟨(Outline.ofLines lines).fragments.size + inner.length, ?_,
    putOutBefore_of_size_le (Nat.le_add_right _ _), fun f hf => ?_⟩
  · rw [hfragments]
    exact hcloses
  · have hend : f ∈ (Outline.ofLines lines).openTags.names.map Fragment.closeTag := by
      rw [hfragments, FragmentQueue.size_eq_length, List.drop_length_add_append] at hf
      exact List.mem_of_mem_drop hf
    obtain ⟨name', _, rfl⟩ := List.mem_map.mp hend
    exact ⟨name', rfl⟩

/-- The one place where an element is closed is where the indentation shows it. -/
theorem exists_closes (h : WellIndented 0 (before ++ .tag tabs number name body :: after)) :
    ∃ place, Closes (fragmentsOf 0 [] (before ++ .tag tabs number name body :: after))
        ⟨placeBehind before tabs, name⟩ place ∧
      LiesBehind (fragmentsOf 0 [] (before ++ .tag tabs number name body :: after)) before
        (.tag tabs number name body) tabs after place := by
  obtain ⟨place, hplace⟩ : ∃ place, Closes
      (fragmentsOf 0 [] (before ++ .tag tabs number name body :: after))
      ⟨placeBehind before tabs, name⟩ place := by
    rcases deeper_or_first tabs after with hafter |
      ⟨between, next, rest, tabs', rfl, hbetween, hnext, hle⟩
    · obtain ⟨place, hplace, _⟩ := closes_last h hafter
      exact ⟨place, hplace⟩
    · obtain ⟨place, hplace, _⟩ := closes_next h hbetween hnext hle
      exact ⟨place, hplace⟩
  refine ⟨place, hplace, ?_, fun hafter => ?_⟩
  · rintro between next rest tabs' rfl hbetween hnext hle
    obtain ⟨place', hplace', hbounds⟩ := closes_next h hbetween hnext hle
    rwa [hplace.unique hplace']
  · obtain ⟨place', hplace', hbound⟩ := closes_last h hafter
    rwa [hplace.unique hplace']

end

open Compilation

/-- In a source that compiles and is well indented, the fragments of a line stand inside as many
elements as it has tabs, the innermost of which is that of the nearest tag line with one tab less;
and the element of a tag line is closed at one place, before the fragments of the first later line
that is not deeper and behind those of all lines before that, or at the end if there is none. -/
theorem indentationTree_of_compile {source : Source} {q : FragmentQueue}
    (hq : (compile source).result = .ok q) (hindent : WellIndented 0 source.lines)
    {before after : List Line} {line : Line} {tabs : Nat}
    (hlines : source.lines = before ++ line :: after) (htabs : line.tabs? = some tabs) :
    (∃ outer, StandsInside q.toList before line tabs outer) ∧
      ∀ name ∈ line.opened, ∃ place,
        (∀ place', Closes q.toList ⟨placeBehind before tabs, name⟩ place' ↔ place' = place) ∧
        LiesBehind q.toList before line tabs after place := by
  obtain ⟨hfragments, _⟩ := exists_document_lines hq
  rw [hlines] at hindent hfragments
  rw [hfragments]
  refine ⟨⟨_, standsInside hindent htabs⟩, fun name hname => ?_⟩
  cases line with
  | blank => cases hname
  | directive t d => cases hname
  | tag t number name' body =>
    cases htabs
    obtain rfl := List.mem_singleton.mp hname
    obtain ⟨place, hplace, hbehind⟩ := exists_closes hindent
    refine ⟨place, fun place' => ⟨fun hplace' => hplace'.unique hplace, ?_⟩, hbehind⟩
    rintro rfl
    exact hplace

/-- The lines are `ul`, with one tab `li`, with two `b|x`, an empty one, and with one tab `li`
again. The first `li` is closed behind `b` and before the second one. -/
theorem indentationTree_of_list :
    ∃ q, (compile (.ofBytes [0x75, 0x6C, 0x0A, 0x09, 0x6C, 0x69, 0x0A, 0x09, 0x09, 0x62, 0x7C, 0x78,
        0x0A, 0x0A, 0x09, 0x6C, 0x69, 0x0A])).result = .ok q ∧
      (∃ outer, StandsInside q.toList [.tag 0 1 "ul" .bare] (.tag 1 2 "li" .bare) 1 outer) ∧
      (∀ place, Closes q.toList ⟨1, "li"⟩ place ↔ place = 5) ∧
      LiesBehind q.toList [.tag 0 1 "ul" .bare] (.tag 1 2 "li" .bare) 1
        [.tag 2 3 "b" (.text "x"), .blank, .tag 1 5 "li" .bare] 5 := by
  have hq : (compile (.ofBytes [0x75, 0x6C, 0x0A, 0x09, 0x6C, 0x69, 0x0A, 0x09, 0x09, 0x62, 0x7C,
      0x78, 0x0A, 0x0A, 0x09, 0x6C, 0x69, 0x0A])).result = .ok { fragments :=
        #[.openTag "ul", .openTag "li", .openTag "b", .rawText "x", .closeTag "b", .closeTag "li",
          .openTag "li", .closeTag "li", .closeTag "ul"] } := by
    decide +kernel
  have hlines : (Source.ofBytes [0x75, 0x6C, 0x0A, 0x09, 0x6C, 0x69, 0x0A, 0x09, 0x09, 0x62, 0x7C,
      0x78, 0x0A, 0x0A, 0x09, 0x6C, 0x69, 0x0A]).lines =
      [.tag 0 1 "ul" .bare] ++ .tag 1 2 "li" .bare ::
        [.tag 2 3 "b" (.text "x"), .blank, .tag 1 5 "li" .bare] := by
    decide +kernel
  have hindent : WellIndented 0 (Source.ofBytes [0x75, 0x6C, 0x0A, 0x09, 0x6C, 0x69, 0x0A, 0x09,
      0x09, 0x62, 0x7C, 0x78, 0x0A, 0x0A, 0x09, 0x6C, 0x69, 0x0A]).lines := by
    rw [hlines]
    simp [WellIndented]
  obtain ⟨hinside, hclosed⟩ := indentationTree_of_compile hq hindent hlines rfl
  obtain ⟨place, hplace, hbehind⟩ := hclosed "li" List.mem_cons_self
  have hfive : 5 = place := (hplace 5).mp ⟨rfl, rfl⟩
  rw [← hfive] at hplace hbehind
  exact ⟨_, hq, hinside, hplace, hbehind⟩

end TabMarkup
