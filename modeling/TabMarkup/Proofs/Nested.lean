import TabMarkup.Proofs.Directive.Parts
import TabMarkup.Proofs.Grammar
import TabMarkup.Proofs.Outline
import TabMarkup.Proofs.Render.Evaluation

/-!
# Well-nested fragments

What lines put out is read from left to right with a stack of open tags. Closing by depth takes
the open tags off from the innermost on, so every tag that is closed is on top, and the end of the
lines closes the rest (`foldlM_fragmentsOf`). Every tag line opens one tag, and half-open tags are
followed by their items and their closing mark.
-/

namespace TabMarkup

namespace Fragment

/-- The tags that are open after a fragment, the innermost first. Only the innermost open tag can
be closed. -/
def openAfter (opened : List String) : Fragment → Option (List String)
  | .openTag name | .halfOpenTag name => some (name :: opened)
  | .closeTag name =>
    match opened with
    | [] => none
    | innermost :: outer => if innermost = name then some outer else none
  | .rawText _ | .attr _ | .directive _ => some opened

/-- The fragment opens a tag. -/
def opens : Fragment → Bool
  | .openTag _ | .halfOpenTag _ => true
  | .closeTag _ | .rawText _ | .attr _ | .directive _ => false

/-- Right behind every half-open tag come its items, one or more, and then the mark that closes
it. An item is an attribute, or a space and one directive; no attribute stands elsewhere. -/
inductive Arranged : List Fragment → Prop where
  | nil : Arranged []
  | plain {f : Fragment} {fs : List Fragment} (hhalf : ∀ name, f ≠ .halfOpenTag name)
      (hattr : ∀ text, f ≠ .attr text) (hfs : Arranged fs) : Arranged (f :: fs)
  | attributed (name : String) {entries : List Item} {fs : List Fragment} (hentries : entries ≠ [])
      (hfs : Arranged fs) :
      Arranged (.halfOpenTag name ::
        (entries.flatMap Nesting.itemFragments ++ .rawText ">" :: fs))

/-- Tags are named by letters, and directives are made of identifiers and paths. -/
def HasNames : Fragment → Prop
  | .openTag name | .closeTag name | .halfOpenTag name => IsTagName name
  | .directive d => d.HasParts
  | .rawText _ | .attr _ => True

theorem WellFormed.hasNames {f : Fragment} (hf : f.WellFormed) : f.HasNames := by
  cases f with
  | directive d => exact Directive.wellFormed_iff.mp hf
  | rawText text => trivial
  | attr text => trivial
  | _ => exact hf

end Fragment

/-- The line opens a tag. -/
def Line.isTag : Line → Bool
  | .tag .. => true
  | .blank | .directive .. => false

namespace Grammar

/-- The first byte behind the tabs of a line is a letter. -/
def beginsTag (w : List UInt8) : Bool :=
  (w.dropWhile (· == 9)).head?.any Pattern.letter.admits

/-- Tabs in front do not matter for what a line begins with. -/
theorem beginsTag_tabs_append (count : Nat) (w : List UInt8) :
    beginsTag (tabs count ++ w) = beginsTag w := by
  rw [beginsTag, dropWhile_tabs_append]
  rfl

/-- A line begins with a letter exactly if it says a tag. -/
theorem LineText.beginsTag_eq {number : Nat} {w : List UInt8} {line : Line}
    (hw : LineText number w line) : beginsTag w = line.isTag := by
  cases hw with
  | blank count =>
    have htabs := beginsTag_tabs_append count []
    rw [List.append_nil] at htabs
    rw [htabs]
    decide
  | @directive count w d hw =>
    obtain ⟨v, rfl⟩ : ∃ v, w = '\x7b'.toUInt8 :: v := by
      cases hw <;> exact ⟨_, rfl⟩
    rw [beginsTag_tabs_append, beginsTag, List.dropWhile_cons_of_neg (by decide)]
    rfl
  | tag hx hw =>
    obtain ⟨b, x, rfl⟩ := List.exists_cons_of_ne_nil hx.1
    have hb : Pattern.letter.admits b = true := hx.2 b List.mem_cons_self
    have htab : b ≠ 9 := by
      rintro rfl
      contradiction
    rw [List.append_assoc, beginsTag_tabs_append, List.cons_append, beginsTag,
      List.dropWhile_cons_of_neg (by simpa using htab)]
    simpa [Line.isTag] using hb

/-- The lines of a document that begin with a letter are those that say a tag. -/
theorem Document.countP_beginsTag {number : Nat} {ws : List (List UInt8)} {lines : List Line}
    (hws : Document number ws lines) : ws.countP beginsTag = lines.countP Line.isTag := by
  induction hws with
  | nil number => simp
  | cons hw hws ih => rw [List.countP_cons, List.countP_cons, ih, hw.beginsTag_eq]

end Grammar

namespace Nesting

open Fragment

/-! ## Opening and closing -/

/-- Closing the innermost tags in order leaves the outer ones open. -/
theorem foldlM_closed (names opened : List String) (fs : List Fragment) :
    (names.map Fragment.closeTag ++ fs).foldlM openAfter (names ++ opened) =
      fs.foldlM openAfter opened := by
  induction names with
  | nil => simp
  | cons name names ih => simpa [openAfter] using ih

/-- Items neither open nor close a tag. -/
theorem foldlM_items (entries : List Item) (opened : List String) (fs : List Fragment) :
    (entries.flatMap itemFragments ++ fs).foldlM openAfter opened = fs.foldlM openAfter opened := by
  induction entries with
  | nil => simp
  | cons i entries ih =>
    rw [List.flatMap_cons, List.append_assoc]
    cases i <;> simpa [itemFragments, openAfter] using ih

/-- What a tag puts out leaves the tag open. -/
theorem foldlM_tagFragments (name : String) (body : TagBody) (opened : List String)
    (fs : List Fragment) :
    (tagFragments name body ++ fs).foldlM openAfter opened =
      fs.foldlM openAfter (name :: opened) := by
  cases body with
  | bare => simp [tagFragments, openAfter]
  | text content => simp [tagFragments, openAfter]
  | items entries =>
    have hitems := foldlM_items entries (name :: opened) (.rawText ">" :: fs)
    simpa [tagFragments, openAfter] using hitems

/-- Read with the tags that are open before them, the fragments of lines only close what is
innermost, and leave nothing open. -/
theorem foldlM_fragmentsOf (depth : Nat) (opened : List String) (lines : List Line) :
    (fragmentsOf depth opened lines).foldlM openAfter opened = some [] := by
  induction lines generalizing depth opened with
  | nil =>
    have hclosed := foldlM_closed opened [] []
    simpa [fragmentsOf] using hclosed
  | cons line lines ih =>
    -- What a line closes is the front of the open tags, and the rest of them stays open.
    have hclosed (tabs : Nat) (fs : List Fragment) :
        ((opened.take (closing depth opened tabs)).map Fragment.closeTag ++ fs).foldlM
            openAfter opened =
          fs.foldlM openAfter (opened.drop (closing depth opened tabs)) := by
      have h := foldlM_closed (opened.take (closing depth opened tabs))
        (opened.drop (closing depth opened tabs)) fs
      rwa [List.take_append_drop] at h
    cases line with
    | blank => exact ih depth opened
    | directive tabs d =>
      rw [fragmentsOf, hclosed]
      simpa [openAfter] using ih tabs _
    | tag tabs number name body =>
      rw [fragmentsOf, List.append_assoc, hclosed, foldlM_tagFragments]
      exact ih (tabs + 1) _

/-! ## Counting tags -/

theorem countP_opens_closed (names : List String) :
    (names.map Fragment.closeTag).countP opens = 0 := by
  rw [List.countP_eq_zero]
  intro f hf
  obtain ⟨name, _, rfl⟩ := List.mem_map.mp hf
  simp [opens]

theorem countP_opens_items (entries : List Item) :
    (entries.flatMap itemFragments).countP opens = 0 := by
  rw [List.countP_eq_zero]
  intro f hf
  obtain ⟨i, _, hi⟩ := List.mem_flatMap.mp hf
  cases i <;> simp only [itemFragments, List.mem_cons, List.not_mem_nil, or_false] at hi
  · simp [hi, opens]
  · rcases hi with rfl | rfl <;> simp [opens]

theorem countP_opens_tagFragments (name : String) (body : TagBody) :
    (tagFragments name body).countP opens = 1 := by
  have hopening : opens (body.opening name) = true := by
    cases body <;> rfl
  have hinside : body.fragments.countP opens = 0 := by
    cases body with
    | bare => rfl
    | text content => rfl
    | items entries =>
      have hitems := countP_opens_items entries
      rw [TagBody.fragments, List.countP_append]
      exact hitems
  rw [tagFragments_eq, List.countP_cons_of_pos hopening, hinside]

/-- Every tag line opens one tag. -/
theorem countP_opens_fragmentsOf (depth : Nat) (opened : List String) (lines : List Line) :
    (fragmentsOf depth opened lines).countP opens = lines.countP Line.isTag := by
  induction lines generalizing depth opened with
  | nil => exact countP_opens_closed opened
  | cons line lines ih =>
    cases line with
    | blank =>
      rw [fragmentsOf, ih, List.countP_cons_of_neg (by simp [Line.isTag])]
    | directive tabs d =>
      rw [fragmentsOf, List.countP_append, countP_opens_closed, Nat.zero_add,
        List.countP_cons_of_neg (by simp [opens]), ih,
        List.countP_cons_of_neg (by simp [Line.isTag])]
    | tag tabs number name body =>
      rw [fragmentsOf, List.countP_append, List.countP_append, countP_opens_closed,
        countP_opens_tagFragments, ih, List.countP_cons_of_pos (by simp [Line.isTag])]
      omega

/-! ## Items and their tags -/

theorem arranged_closed_append (names : List String) {fs : List Fragment} (hfs : Arranged fs) :
    Arranged (names.map .closeTag ++ fs) := by
  induction names with
  | nil => exact hfs
  | cons name names ih => exact Arranged.plain (by simp) (by simp) ih

theorem arranged_tagFragments_append (name : String) {body : TagBody}
    (hbody : ∀ entries, body = .items entries → entries ≠ []) {fs : List Fragment}
    (hfs : Arranged fs) : Arranged (tagFragments name body ++ fs) := by
  cases body with
  | bare => exact Arranged.plain (by simp) (by simp) hfs
  | text content =>
    exact Arranged.plain (by simp) (by simp) (Arranged.plain (by simp) (by simp) hfs)
  | items entries =>
    have h := Arranged.attributed name (hbody entries rfl) hfs
    simpa [tagFragments] using h

/-- Lines put out their items with the tags that these belong to. -/
theorem arranged_fragmentsOf (depth : Nat) (opened : List String) {lines : List Line}
    (hlines : ∀ tabs number name entries,
      Line.tag tabs number name (.items entries) ∈ lines → entries ≠ []) :
    Arranged (fragmentsOf depth opened lines) := by
  induction lines generalizing depth opened with
  | nil =>
    have h := arranged_closed_append opened Arranged.nil
    rwa [List.append_nil] at h
  | cons line lines ih =>
    have hrest := fun depth opened => ih depth opened fun tabs number name entries hmem =>
      hlines tabs number name entries (List.mem_cons_of_mem line hmem)
    cases line with
    | blank => exact hrest depth opened
    | directive tabs d =>
      exact arranged_closed_append _ (Arranged.plain (by simp) (by simp) (hrest _ _))
    | tag tabs number name body =>
      rw [fragmentsOf, List.append_assoc]
      apply arranged_closed_append
      apply arranged_tagFragments_append name _ (hrest _ _)
      rintro entries rfl
      exact hlines tabs number name entries List.mem_cons_self

end Nesting

end TabMarkup
