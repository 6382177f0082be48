import TabMarkup.Proofs.Compilation.Grammar
import TabMarkup.Proofs.Line.WellFormed

/-!
# Compiling, composing and rendering

What a source compiles to can be composed and rendered without anything getting lost or made up:
the lines of a source only say what can be told apart again, and no literal text stands where its
end could join with the text behind it (`render_compose_of_compile`).
-/

namespace TabMarkup

open Grammar Fragment

namespace Nesting

/-! ## The fragments of lines -/

theorem wellFormed_of_mem_closed {opened : List String}
    (hopened : ∀ name ∈ opened, IsTagName name) :
    ∀ f ∈ opened.map Fragment.closeTag, f.WellFormed := by
  intro f hf
  obtain ⟨name, hname, rfl⟩ := List.mem_map.mp hf
  exact hopened name hname

theorem wellFormed_of_mem_itemFragments {i : Item} (hi : i.WellFormed) :
    ∀ f ∈ itemFragments i, f.WellFormed := by
  intro f hf
  cases i with
  | attr text =>
    obtain rfl := List.mem_singleton.mp hf
    exact hi
  | directive d =>
    rcases List.mem_cons.mp hf with rfl | hf
    · trivial
    · obtain rfl := List.mem_singleton.mp hf
      exact hi

theorem wellFormed_of_mem_tagFragments {name : String} {body : TagBody}
    (hname : IsTagName name) (hbody : body.WellFormed) :
    ∀ f ∈ tagFragments name body, f.WellFormed := by
  cases body with
  | bare => exact List.forall_mem_singleton.mpr hname
  | text content =>
    exact List.forall_mem_cons.mpr ⟨hname, List.forall_mem_singleton.mpr trivial⟩
  | items entries =>
    rw [tagFragments, List.forall_mem_cons, List.forall_mem_append]
    refine ⟨hname, ?_, List.forall_mem_singleton.mpr trivial⟩
    intro f hf
    obtain ⟨i, hi, hfi⟩ := List.mem_flatMap.mp hf
    exact wellFormed_of_mem_itemFragments (hbody.2 i hi) f hfi

/-- The fragments that lines put out are well formed, if the lines are. -/
theorem wellFormed_of_mem_fragmentsOf {lines : List Line}
    (hlines : ∀ line ∈ lines, line.WellFormed) (depth : Nat) {opened : List String}
    (hopened : ∀ name ∈ opened, IsTagName name) :
    ∀ f ∈ fragmentsOf depth opened lines, f.WellFormed := by
  induction lines generalizing depth opened with
  | nil => exact wellFormed_of_mem_closed hopened
  | cons line lines ih =>
    have htake : ∀ k, ∀ name ∈ opened.take k, IsTagName name :=
      fun k name hname => hopened name (List.mem_of_mem_take hname)
    have hdrop : ∀ k, ∀ name ∈ opened.drop k, IsTagName name :=
      fun k name hname => hopened name (List.mem_of_mem_drop hname)
    have hrest : ∀ line' ∈ lines, line'.WellFormed :=
      fun line' hmem => hlines line' (List.mem_cons_of_mem _ hmem)
    have hline := hlines line List.mem_cons_self
    cases line with
    | blank => exact ih hrest depth hopened
    | directive tabs d =>
      rw [fragmentsOf, List.forall_mem_append, List.forall_mem_cons]
      exact ⟨wellFormed_of_mem_closed (htake _), hline, ih hrest _ (hdrop _)⟩
    | tag tabs number name body =>
      rw [fragmentsOf, List.forall_mem_append, List.forall_mem_append]
      exact ⟨⟨wellFormed_of_mem_closed (htake _),
        wellFormed_of_mem_tagFragments hline.1 hline.2⟩,
        ih hrest _ (List.forall_mem_cons.mpr ⟨hline.1, hdrop _⟩)⟩

/-! ## No two literal texts together -/

/-- The first of these fragments is no literal text. -/
def HeadApart (fs : List Fragment) : Prop :=
  ∀ f ∈ fs.head?, f.isRaw = false

theorem isChain_cons_of_headApart {f : Fragment} {fs : List Fragment}
    (hfs : fs.IsChain Apart) (hhead : HeadApart fs) : (f :: fs).IsChain Apart :=
  List.isChain_cons.mpr ⟨fun g hg _ => hhead g hg, hfs⟩

theorem isChain_cons_of_apart {f : Fragment} {fs : List Fragment} (hf : f.isRaw = false)
    (hfs : fs.IsChain Apart) : (f :: fs).IsChain Apart := by
  refine List.isChain_cons.mpr ⟨fun g _ hraw => ?_, hfs⟩
  rw [hf] at hraw
  cases hraw

/-- Closed tags in front of other fragments. -/
theorem isChain_closed_append (opened : List String) {fs : List Fragment}
    (hfs : fs.IsChain Apart) (hhead : HeadApart fs) :
    (opened.map Fragment.closeTag ++ fs).IsChain Apart ∧
      HeadApart (opened.map Fragment.closeTag ++ fs) := by
  induction opened with
  | nil => exact ⟨hfs, hhead⟩
  | cons name opened ih =>
    refine ⟨isChain_cons_of_apart rfl ih.1, ?_⟩
    intro f hf
    cases hf
    rfl

/-- The items of a tag, its closing mark and other fragments, behind a fragment that is no
literal text. -/
theorem isChain_items_append (entries : List Item) {f : Fragment} (hf : f.isRaw = false)
    {fs : List Fragment} (hfs : fs.IsChain Apart) (hhead : HeadApart fs) :
    (f :: (entries.flatMap itemFragments ++ .rawText ">" :: fs)).IsChain Apart := by
  induction entries generalizing f with
  | nil => exact isChain_cons_of_apart hf (isChain_cons_of_headApart hfs hhead)
  | cons i entries ih =>
    rw [List.flatMap_cons, List.append_assoc]
    cases i with
    | attr text => exact isChain_cons_of_apart hf (ih rfl)
    | directive d =>
      refine isChain_cons_of_apart hf (isChain_cons_of_headApart (ih rfl) ?_)
      intro g hg
      cases hg
      rfl

theorem isChain_tagFragments_append (name : String) (body : TagBody) {fs : List Fragment}
    (hfs : fs.IsChain Apart) (hhead : HeadApart fs) :
    (tagFragments name body ++ fs).IsChain Apart ∧
      HeadApart (tagFragments name body ++ fs) := by
  cases body with
  | bare =>
    refine ⟨isChain_cons_of_apart rfl hfs, fun f hf => ?_⟩
    cases hf
    rfl
  | text content =>
    refine ⟨isChain_cons_of_apart rfl (isChain_cons_of_headApart hfs hhead), fun f hf => ?_⟩
    cases hf
    rfl
  | items entries =>
    refine ⟨?_, fun f hf => ?_⟩
    · simpa [tagFragments] using isChain_items_append entries rfl hfs hhead
    · cases hf
      rfl

/-- No two literal texts stand next to each other in what lines put out, and none stands at its
front. -/
theorem isChain_fragmentsOf (depth : Nat) (opened : List String) (lines : List Line) :
    (fragmentsOf depth opened lines).IsChain Apart ∧
      HeadApart (fragmentsOf depth opened lines) := by
  have hnil : ([] : List Fragment).IsChain Apart ∧ HeadApart [] :=
    ⟨List.IsChain.nil, fun f hf => by cases hf⟩
  induction lines generalizing depth opened with
  | nil => simpa [fragmentsOf] using isChain_closed_append opened hnil.1 hnil.2
  | cons line lines ih =>
    cases line with
    | blank => exact ih depth opened
    | directive tabs d =>
      refine isChain_closed_append _ (isChain_cons_of_apart rfl (ih _ _).1) fun f hf => ?_
      cases hf
      rfl
    | tag tabs number name body =>
      rw [fragmentsOf, List.append_assoc]
      obtain ⟨hchain, hhead⟩ := isChain_tagFragments_append name body (ih _ _).1 (ih _ _).2
      exact isChain_closed_append _ hchain hhead

end Nesting

/-- What any source compiles to is rendered, once composed, by putting the value of each directive
in its place, in order, and copying everything else as it is; the first directive without a value
ends it with its own error. Every directive up to there makes its calls once, and no error is about
the form of the document. -/
theorem render_compose_of_compile {source : Source} {q : FragmentQueue}
    (hq : (compile source).result = .ok q) (bindings : Bindings) (statics : Statics) :
    (∃ value : Directive → String,
      (∀ d ∈ directives q.toList, d.lookup? bindings statics = some (value d)) ∧
      render q.compose bindings statics =
        { result := .ok (q.toList.flatMap (plain value) ++ ['\n'])
          directives := (directives q.toList).length
          calls := (directives q.toList).flatMap (Directive.questions bindings statics) }) ∨
    (∃ before d after error, q.toList = before ++ .directive d :: after ∧
      (∀ d' ∈ directives before, (d'.lookup? bindings statics).isSome) ∧
      d.lookup? bindings statics = none ∧
      error.IsOfLookup ∧ (d.evaluate bindings statics).result = .error error ∧
      (render q.compose bindings statics).result = .error error ∧
      (render q.compose bindings statics).calls =
        (directives before ++ [d]).flatMap (Directive.questions bindings statics)) := by
  obtain ⟨bytes, lines, _, hlines, hfragments⟩ := Compilation.exists_document hq
  have hwellFormed : ∀ f ∈ q.toList, f.WellFormed := by
    rw [hfragments]
    refine Nesting.wellFormed_of_mem_fragmentsOf (fun line hline => ?_) 0 (by simp)
    obtain ⟨_, _, htext⟩ := hlines.lineText_of_mem hline
    exact htext.wellFormed
  have hchain : q.toList.IsChain Apart := by
    rw [hfragments]
    exact (Nesting.isChain_fragmentsOf 0 [] lines).1
  have hrender : render q.compose bindings statics = evaluateAll bindings statics q.toList := by
    rw [render, FragmentQueue.compose, String.toList_ofList]
    exact renderPieces_written bindings statics hwellFormed hchain 0
  rw [hrender]
  rcases all_or_first bindings statics q.toList with hall | ⟨before, d, after, hsplit, hbefore, hd⟩
  · have hvalue : ∀ d ∈ directives q.toList,
        d.lookup? bindings statics = some ((d.lookup? bindings statics).getD "") := by
      intro d hd
      obtain ⟨text, htext⟩ := Option.isSome_iff_exists.mp (hall d hd)
      simp [htext]
    exact Or.inl ⟨fun d => (d.lookup? bindings statics).getD "", hvalue,
      evaluateAll_of_all hvalue⟩
  · right
    obtain ⟨error, hlookup, heval, hresult, hcalls⟩ := evaluateAll_of_first hbefore hd after
    refine ⟨before, d, after, error, hsplit, hbefore, hd, hlookup, heval, ?_⟩
    rw [hsplit]
    exact ⟨hresult, hcalls⟩

/-- Literal text that looks like a mark, in front of a value that looks like a directive: the
lines are `p|<%=` and, one tab deeper, `{{$x}}`. -/
theorem render_compose_of_marks :
    ∃ q, (compile (.ofBytes [0x70, 0x7C, 0x3C, 0x25, 0x3D, 0x0A, 0x09, 0x7B, 0x7B, 0x24, 0x78, 0x7D,
        0x7D])).result = .ok q ∧
      render q.compose (({} : Bindings).insert "x" (.value "<%= y %>")) {} =
        { result := .ok "<p><%=<%= y %></p>\n".toList, directives := 1 } := by
  have hq : (compile (.ofBytes [0x70, 0x7C, 0x3C, 0x25, 0x3D, 0x0A, 0x09, 0x7B, 0x7B, 0x24, 0x78,
      0x7D, 0x7D])).result = .ok { fragments :=
        #[.openTag "p", .rawText "<%=", .directive (.value "x"), .closeTag "p"] } := by
    decide +kernel
  have hlookup : (Directive.value "x").lookup?
      (({} : Bindings).insert "x" (.value "<%= y %>")) {} = some "<%= y %>" := by decide +kernel
  refine ⟨_, hq, ?_⟩
  rcases render_compose_of_compile hq (({} : Bindings).insert "x" (.value "<%= y %>")) {} with
    ⟨value, hvalue, hrender⟩ | ⟨before, d, after, _, hsplit, _, hd, _⟩
  · have hx : value (.value "x") = "<%= y %>" :=
      Option.some.inj ((hvalue (.value "x") (by decide)).symm.trans hlookup)
    rw [hrender]
    simp [FragmentQueue.toList, plain, copied, hx, directives, directive?, Directive.questions]
    rfl
  · have hmem : d ∈ directives (before ++ .directive d :: after) :=
      List.mem_filterMap.mpr ⟨.directive d, by simp, rfl⟩
    rw [← hsplit] at hmem
    obtain rfl : d = .value "x" := List.mem_singleton.mp hmem
    rw [hlookup] at hd
    cases hd

end TabMarkup
