import TabMarkup.Proofs.Render.Pieces

/-!
# Escaped text

Escaping leaves no mark in a text that its renderer could take for a directive, and rendering
undoes it. So what a source says in plain text is shown as it is, and different texts are written
differently (`escaped_renders_back`).
-/

namespace TabMarkup

namespace Fragment

/-- Every `<%` in the text has a percent sign behind it. -/
def Neutral (text : List Char) : Prop :=
  ∀ after, '<' :: '%' :: after <:+ text → after.head? = some '%'

theorem neutral_escape (t : List Char) : Neutral (escape t) := by
  fun_induction escape t with
  | case1 t ih =>
    intro after hmark
    simp only [List.suffix_cons_iff] at hmark
    rcases hmark with heq | heq | heq | hmark
    · cases heq
      rfl
    · cases heq
    · cases heq
    · exact ih after hmark
  | case2 c t hmark ih =>
    intro after hafter
    rcases List.suffix_cons_iff.mp hafter with heq | hafter
    · obtain ⟨rfl, htail⟩ := List.cons.inj heq
      have hhead : t.head? = some '%' := by
        rw [← head?_escape, ← htail]
        rfl
      obtain ⟨rest, rfl⟩ := List.head?_eq_some_iff.mp hhead
      exact absurd rfl (hmark rest rfl)
    · exact ih after hafter
  | case3 =>
    intro after hafter
    cases List.suffix_nil.mp hafter

/-- An attribute is written as the plain text of a space and its trimmed form. -/
theorem text_attr (t : String) :
    (attr t).text = (rawText (String.ofList (' ' :: Text.trim t.toList))).text := by
  have hescape : escape (' ' :: Text.trim t.toList) = ' ' :: escape (Text.trim t.toList) := by
    rw [escape]
    intro rest hspace
    exact absurd hspace (by decide)
  simp only [text, written, String.toList_ofList, hescape]

/-- A document of nothing but escaped text is rendered as the text, and nothing is asked for. -/
theorem render_rawText (t : String) (bindings : Bindings) (statics : Statics) :
    render (rawText t).text bindings statics = { result := .ok t.toList } := by
  have hseam : t.toList.getLast? = some '<' → ([] : List Char).head? ≠ some '%' := by simp
  obtain ⟨offset, hrender⟩ := Template.renderPieces_escape bindings statics hseam 0
  have hnil : Template.piecesFrom offset [] = [] := by rw [Template.piecesFrom]
  rw [List.append_nil, hnil] at hrender
  have htext : (rawText t).text.toList = escape t.toList := String.toList_ofList
  rw [render, Template.pieces, htext, hrender, Template.renderPieces]
  simp [Rendering.prepend, Except.map]

end Fragment

/-- Text that a source has as plain text or as an attribute is written without a mark that could
open a directive, is rendered as it was, an attribute behind a space and without the white space
around it, whatever names are bound and without any call. So no two texts are written alike. -/
theorem escaped_renders_back :
    (∀ t : String,
      Fragment.Neutral (Fragment.rawText t).text.toList ∧
      (∀ bindings statics,
        render (Fragment.rawText t).text bindings statics = { result := .ok t.toList }) ∧
      ∃ trimmed, Text.TrimsTo t.toList trimmed ∧
        Fragment.Neutral (Fragment.attr t).text.toList ∧
        ∀ bindings statics,
          render (Fragment.attr t).text bindings statics = { result := .ok (' ' :: trimmed) }) ∧
    Function.Injective fun t => (Fragment.rawText t).text := by
  have hneutral (t : String) : Fragment.Neutral (Fragment.rawText t).text.toList := by
    rw [Fragment.text, String.toList_ofList]
    exact Fragment.neutral_escape t.toList
  refine ⟨fun t => ⟨hneutral t, Fragment.render_rawText t, ?_⟩, ?_⟩
  · refine ⟨Text.trim t.toList, Text.trimsTo_trim t.toList, ?_, fun bindings statics => ?_⟩
    · rw [Fragment.text_attr]
      exact hneutral _
    · rw [Fragment.text_attr, Fragment.render_rawText, String.toList_ofList]
  · intro t t' hsame
    have hsame : (Fragment.rawText t).text = (Fragment.rawText t').text := hsame
    have hback := Fragment.render_rawText t {} {}
    rw [hsame, Fragment.render_rawText] at hback
    have hresult := Except.ok.inj (congrArg Rendering.result hback)
    exact (String.toList_inj.mp hresult).symm

/-- Marks next to each other and one at the end, as they are written. -/
example : (Fragment.rawText "<<%%=<%").text = "<<%%%=<%%" := by
  decide

end TabMarkup
