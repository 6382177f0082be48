import TabMarkup.Proofs.Indentation

/-!
# The log of an outline

While lines come in, an outline notes which tags it opens and closes, each with a depth. A line
notes the tags that it closes, all from levels below its own, and then what it opens (`events_add`).
What is noted is what is put out (`Mirrors`), and as long as no line skips a level, a tag is closed
one level below the one that it was opened at (`Paired`).
-/

namespace TabMarkup

/-- That a tag opens or closes, whichever way it is told. -/
inductive Mark where
  | opened (name : String)
  | closed (name : String)
  deriving Repr, DecidableEq

/-- What a fragment tells of tags. -/
def Fragment.mark? : Fragment → Option Mark
  | .openTag name | .halfOpenTag name => some (.opened name)
  | .closeTag name => some (.closed name)
  | .rawText _ | .attr _ | .directive _ => none

/-- What belongs to a tag, but for its opening, tells nothing of tags. -/
theorem Fragment.mark?_of_mem_fragments {body : TagBody} (f : Fragment) (hf : f ∈ body.fragments) :
    f.mark? = none := by
  have hsame := elementsAfter_of_mem_fragments hf 0 [⟨0, ""⟩]
  cases f with
  | openTag name | halfOpenTag name | closeTag name =>
    simp [Fragment.elementsAfter] at hsame
  | rawText _ | attr _ | directive _ => rfl

namespace Event

/-- What an event tells of tags. -/
def mark? : Event → Option Mark
  | .opened name _ => some (.opened name)
  | .closed name _ => some (.closed name)
  | _ => none

/-- A tag is closed at a level below `tabs`. -/
def ClosesBelow (tabs : Nat) (event : Event) : Prop :=
  ∃ name depth, event = .closed name depth ∧ tabs < depth

/-- The open tags after an event, innermost first, each with the depth that it was opened at. A tag
that is not the innermost cannot be closed, nor can the innermost one at any depth but the next. -/
def openAfter (opened : List (String × Nat)) : Event → Option (List (String × Nat))
  | .opened name depth => some ((name, depth) :: opened)
  | .closed name depth =>
    match opened with
    | [] => none
    | innermost :: outer =>
      if innermost.1 = name ∧ depth = innermost.2 + 1 then some outer else none
  | _ => some opened

end Event

/-- What the name of a tag makes worth a warning. -/
def Element.warnings (number : Nat) (name : String) : List Event :=
  if isKnown name then [] else [.unknownTag name number]

/-- What a line notes of its own. -/
def Line.ownEvents : Line → List Event
  | .blank | .directive .. => []
  | .tag tabs number name _ => Element.warnings number name ++ [.opened name tabs]

namespace Outline

/-! ## What a line notes -/

/-- Going up some levels, none above `tabs`, notes nothing but closed tags. -/
theorem events_closeLevels (o : Outline) {tabs levels : Nat} (hlevels : levels ≤ o.depth - tabs) :
    ∃ closes, (o.closeLevels levels).events.toList = o.events.toList ++ closes ∧
      ∀ event ∈ closes, event.ClosesBelow tabs := by
  induction levels generalizing o with
  | zero => exact ⟨[], by simp [closeLevels], by simp⟩
  | succ levels ih =>
    have hdepth : o.closeLevel.depth = o.depth - 1 := (closeLevel_eq o).2.2
    obtain ⟨closes, hevents, hcloses⟩ := ih o.closeLevel (by omega)
    rw [closeLevels, hevents]
    cases hnames : o.openTags.names with
    | nil => exact ⟨closes, by simp [closeLevel, TagStack.pop, hnames], hcloses⟩
    | cons name outer =>
      refine ⟨.closed name o.depth :: closes, ?_, ?_⟩
      · simp [closeLevel, TagStack.pop, hnames, note, emit]
      · rw [List.forall_mem_cons]
        exact ⟨⟨name, o.depth, rfl, by omega⟩, hcloses⟩

theorem events_indentTo (o : Outline) (tabs : Nat) :
    ∃ closes, (o.indentTo tabs).events.toList = o.events.toList ++ closes ∧
      ∀ event ∈ closes, event.ClosesBelow tabs :=
  events_closeLevels o (Nat.le_refl _)

/-- An opened tag is noted with the depth that it opens at, behind a warning if its name calls for
one. -/
theorem events_openTag (o : Outline) (number : Nat) (name : String) (opening : Fragment) :
    (o.openTag number name opening).events.toList =
      o.events.toList ++ (Element.warnings number name ++ [.opened name o.depth]) := by
  unfold openTag checkTag Element.warnings
  split <;> simp [note, emit]

/-- A line notes the tags that it closes, and then its own events. -/
theorem events_add (o : Outline) {line : Line} {tabs : Nat} (h : line.tabs? = some tabs) :
    ∃ closes, (o.add line).events.toList = o.events.toList ++ (closes ++ line.ownEvents) ∧
      ∀ event ∈ closes, event.ClosesBelow tabs := by
  cases line with
  | blank => cases h
  | directive t d =>
    cases h
    obtain ⟨closes, hevents, hcloses⟩ := events_indentTo o tabs
    exact ⟨closes, by simp [add, emit, Line.ownEvents, hevents], hcloses⟩
  | tag t number name body =>
    cases h
    obtain ⟨closes, hevents, hcloses⟩ := events_indentTo o tabs
    have hdepth : (o.indentTo tabs).depth = tabs := rfl
    refine ⟨closes, ?_, hcloses⟩
    simp [add, emit, Line.ownEvents, events_openTag, hevents, hdepth]

/-! ## The notes and the fragments -/

/-- The same is told of tags by what is noted and by what is put out. -/
def Mirrors (o : Outline) : Prop :=
  o.events.toList.filterMap Event.mark? = o.fragments.toList.filterMap Fragment.mark?

theorem Mirrors.closeLevel {o : Outline} (h : o.Mirrors) : o.closeLevel.Mirrors := by
  obtain ⟨depth, ⟨names⟩, queue, events⟩ := o
  unfold Mirrors at h ⊢
  cases names with
  | nil => simpa [Outline.closeLevel, TagStack.pop] using h
  | cons name names =>
    simp [Outline.closeLevel, TagStack.pop, emit, note, h, Event.mark?, Fragment.mark?]

theorem Mirrors.closeLevels {o : Outline} (h : o.Mirrors) (levels : Nat) :
    (o.closeLevels levels).Mirrors := by
  induction levels generalizing o with
  | zero => exact h
  | succ levels ih => exact ih h.closeLevel

theorem Mirrors.indentTo {o : Outline} (h : o.Mirrors) (tabs : Nat) : (o.indentTo tabs).Mirrors :=
  h.closeLevels (o.depth - tabs)

theorem Mirrors.openTag {o : Outline} (h : o.Mirrors) (number : Nat) {name : String}
    {opening : Fragment} (hopening : opening.mark? = some (.opened name)) :
    (o.openTag number name opening).Mirrors := by
  have hwarnings : (Element.warnings number name).filterMap Event.mark? = [] := by
    unfold Element.warnings
    split <;> rfl
  unfold Mirrors at h ⊢
  rw [events_openTag, (openTag_eq o number name opening).2.1]
  simp [h, hwarnings, hopening, Event.mark?]

/-- Fragments that tell nothing of tags make no difference. -/
theorem Mirrors.emit {o : Outline} (h : o.Mirrors) {fragments : List Fragment}
    (hfragments : ∀ f ∈ fragments, f.mark? = none) : (o.emit fragments).Mirrors := by
  unfold Mirrors at h ⊢
  have hnone : fragments.filterMap Fragment.mark? = [] := List.filterMap_eq_nil_iff.mpr hfragments
  simp [Outline.emit, h, hnone]

theorem Mirrors.add {o : Outline} (h : o.Mirrors) (line : Line) : (o.add line).Mirrors := by
  cases line with
  | blank => exact h
  | directive tabs d => exact (h.indentTo tabs).emit (by simp [Fragment.mark?])
  | tag tabs number name body =>
    have hopening : (body.opening name).mark? = some (.opened name) := by cases body <;> rfl
    exact ((h.indentTo tabs).openTag number hopening).emit fun f hf => f.mark?_of_mem_fragments hf

theorem mirrors_ofLines (lines : List Line) : (ofLines lines).Mirrors := by
  have hrun : ∀ (o : Outline), o.Mirrors → (lines.foldl add o).Mirrors := by
    induction lines with
    | nil => exact fun o h => h
    | cons line lines ih => exact fun o h => ih (o.add line) (h.add line)
  exact hrun {} rfl

/-! ## The depths of a tag -/

/-- Open tags, innermost first, each with the number of tags around it. -/
def withLevels : List String → List (String × Nat)
  | [] => []
  | name :: outer => (name, outer.length) :: withLevels outer

/-- No level is without its open tag, and each open tag was noted with the number of tags around
it. -/
structure Paired (o : Outline) : Prop where
  length_eq : o.openTags.names.length = o.depth
  opened_eq : o.events.toList.foldlM Event.openAfter [] = some (withLevels o.openTags.names)

theorem paired_empty : Paired {} :=
  ⟨rfl, rfl⟩

variable {o : Outline}

/-- The tag of a level is closed at the depth behind the one that it was opened at. -/
theorem Paired.closeLevel (h : o.Paired) (hdepth : 0 < o.depth) : o.closeLevel.Paired := by
  obtain ⟨hlength, hopened⟩ := h
  cases hnames : o.openTags.names with
  | nil => simp [hnames] at hlength; omega
  | cons name outer =>
    rw [hnames] at hlength hopened
    rw [List.length_cons] at hlength
    have hclose : Event.openAfter (withLevels (name :: outer)) (.closed name o.depth) =
        some (withLevels outer) := by
      rw [← hlength]
      simp [Event.openAfter, withLevels]
    constructor
    · simp [Outline.closeLevel, TagStack.pop, hnames]
      omega
    · simp [Outline.closeLevel, TagStack.pop, hnames, note, Outline.emit, List.foldlM_append,
        hopened, hclose]

theorem Paired.closeLevels (h : o.Paired) {levels : Nat} (hlevels : levels ≤ o.depth) :
    (o.closeLevels levels).Paired := by
  induction levels generalizing o with
  | zero => exact h
  | succ levels ih =>
    have hdepth : o.closeLevel.depth = o.depth - 1 := (closeLevel_eq o).2.2
    exact ih (h.closeLevel (by omega)) (by omega)

/-- A line that skips no level leaves as many tags open as it has tabs. -/
theorem Paired.indentTo (h : o.Paired) {tabs : Nat} (htabs : tabs ≤ o.depth) :
    (o.indentTo tabs).Paired := by
  obtain ⟨hlength, hopened⟩ := h.closeLevels (Nat.sub_le o.depth tabs)
  have hdepth : (o.closeLevels (o.depth - tabs)).depth = tabs := by
    rw [(closeLevels_eq o _).2.2]
    omega
  exact ⟨hlength.trans hdepth, hopened⟩

theorem Paired.openTag (h : o.Paired) (number : Nat) (name : String) (opening : Fragment) :
    (o.openTag number name opening).Paired := by
  obtain ⟨hnames, _, hdepth⟩ := openTag_eq o number name opening
  have hwarnings : ∀ opened : List (String × Nat),
      (Element.warnings number name).foldlM Event.openAfter opened = some opened := by
    intro opened
    unfold Element.warnings
    split <;> rfl
  constructor
  · rw [hnames, hdepth, List.length_cons, h.length_eq]
  · rw [events_openTag, List.foldlM_append, h.opened_eq]
    simp [List.foldlM_append, hwarnings, Event.openAfter, hnames, withLevels, h.length_eq]

theorem Paired.add (h : o.Paired) {line : Line} (htabs : ∀ tabs ∈ line.tabs?, tabs ≤ o.depth) :
    (o.add line).Paired := by
  cases line with
  | blank => exact h
  | directive tabs d =>
    obtain ⟨hlength, hopened⟩ := h.indentTo (htabs tabs rfl)
    exact ⟨hlength, hopened⟩
  | tag tabs number name body =>
    obtain ⟨hlength, hopened⟩ :=
      (h.indentTo (htabs tabs rfl)).openTag number name (body.opening name)
    exact ⟨hlength, hopened⟩

/-- Lines that skip no level leave every tag open at its own level. -/
theorem Paired.foldl_add (h : o.Paired) {lines : List Line} (hlines : WellIndented o.depth lines) :
    (lines.foldl Outline.add o).Paired := by
  induction lines generalizing o with
  | nil => exact h
  | cons line lines ih =>
    cases line with
    | blank => exact ih h hlines
    | directive tabs d =>
      obtain ⟨htabs, hrest⟩ := hlines
      exact ih (h.add (by simpa [Line.tabs?] using htabs)) hrest
    | tag tabs number name body =>
      obtain ⟨htabs, hrest⟩ := hlines
      refine ih (h.add (by simpa [Line.tabs?] using htabs)) ?_
      have hlead : (Line.tag tabs number name body).tabs? = some tabs := rfl
      rw [(add_eq o hlead).2.2]
      exact hrest

/-- In the end every tag is closed one level below the one that it was opened at. -/
theorem Paired.finish (h : o.Paired) :
    o.finish.events.toList.foldlM Event.openAfter [] = some [] := by
  obtain ⟨hlength, hopened⟩ := h.indentTo (Nat.zero_le o.depth)
  have hnone : (o.indentTo 0).openTags.names = [] := List.eq_nil_of_length_eq_zero hlength
  rw [Outline.finish, hopened, hnone]
  rfl

end Outline

end TabMarkup
