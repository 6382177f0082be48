import TabMarkup.Fragment
import TabMarkup.Proofs.Directive.Composed
import TabMarkup.Render

/-!
# Composed text in front of a document

An escaped text is rendered as the text it was made from, and a composed directive as the value it
asks for, whatever follows. The one thing that the two sides of such a seam could make up together
is a mark, from a `<` at the end of a text and a percent sign behind it.
-/

namespace TabMarkup

namespace Rendering

/-- The outcome with a text in front of it. -/
def prepend (text : List Char) (r : Rendering) : Rendering :=
  { r with result := r.result.map (text ++ ·) }

/-- A text that is copied and then another outcome. -/
theorem andThen_ok (text : List Char) (r : Rendering) :
    ({ result := .ok text } : Rendering).andThen r = r.prepend text := by
  simp [andThen, prepend]

theorem prepend_nil (r : Rendering) : r.prepend [] = r := by
  obtain ⟨result, directives, calls⟩ := r
  cases result <;> rfl

theorem prepend_prepend (u v : List Char) (r : Rendering) :
    (r.prepend v).prepend u = r.prepend (u ++ v) := by
  obtain ⟨result, directives, calls⟩ := r
  cases result
  · rfl
  · simp [prepend, Except.map]

end Rendering

namespace Fragment

/-- Escaping does not change the first character. -/
theorem head?_escape (t : List Char) : (escape t).head? = t.head? := by
  fun_cases escape t <;> rfl

/-- A text without percent signs needs no escapes. -/
theorem escape_of_notMem {t : List Char} (ht : '%' ∉ t) : escape t = t := by
  fun_induction escape t with
  | case1 t ih => exact absurd (by simp) ht
  | case2 c t hmark ih => rw [ih fun h => ht (by simp [h])]
  | case3 => rfl

end Fragment

namespace Template

open Fragment

/-- A character that begins neither an escape nor a directive is a piece of its own. -/
theorem piecesFrom_literal {c : Char} {text : List Char}
    (hescape : ∀ rest, c = '<' → text = '%' :: '%' :: rest → False)
    (hdirective : ∀ rest, c = '<' → text = '%' :: '=' :: rest → False) (offset : Nat) :
    piecesFrom offset (c :: text) = .literal [c] :: piecesFrom (offset + c.utf8Size) text := by
  rw [piecesFrom]
  · exact hescape
  · exact hdirective

/-- A character that begins no mark is a piece of its own. -/
theorem piecesFrom_cons {c : Char} {text : List Char} (h : ∀ rest, c :: text ≠ '<' :: '%' :: rest)
    (offset : Nat) :
    piecesFrom offset (c :: text) = .literal [c] :: piecesFrom (offset + c.utf8Size) text := by
  apply piecesFrom_literal
  · intro rest hc htext
    exact h ('%' :: rest) (by rw [hc, htext])
  · intro rest hc htext
    exact h ('=' :: rest) (by rw [hc, htext])

/-- A directive that is closed is a piece. -/
theorem piecesFrom_of_cut {text body after : List Char}
    (h : Text.cut? ['%', '>'] text = some (body, after)) (offset : Nat) :
    piecesFrom offset ('<' :: '%' :: '=' :: text) =
      .directive body :: piecesFrom (offset + 3 + byteSize body + 2) after := by
  rw [piecesFrom]
  split <;> simp_all

/-- A composed directive is one piece. -/
theorem piecesFrom_composed {d : Directive} (hd : d.WellFormed) (rest : List Char)
    (offset : Nat) :
    ∃ offset', piecesFrom offset (d.composed ++ rest) =
      .directive ([' '] ++ (d.body ++ [' '])) :: piecesFrom offset' rest := by
  have hbody : '%' ∉ ' ' :: (d.body ++ [' ']) := by
    simp [hd.percent_notMem]
  have hcut : Text.cut? ['%', '>'] ((' ' :: (d.body ++ [' '])) ++ (['%', '>'] ++ rest)) =
      some (' ' :: (d.body ++ [' ']), rest) := Text.cut?_append hbody rest
  have htext : d.composed ++ rest =
      '<' :: '%' :: '=' :: ((' ' :: (d.body ++ [' '])) ++ (['%', '>'] ++ rest)) := by
    simp [Directive.composed]
  refine ⟨offset + 3 + byteSize (' ' :: (d.body ++ [' '])) + 2, ?_⟩
  rw [htext, piecesFrom_of_cut hcut]
  rfl

variable (bindings : Bindings) (statics : Statics)

/-- An escaped text in front of a document is rendered as the text. -/
theorem renderPieces_escape {t rest : List Char}
    (hseam : t.getLast? = some '<' → rest.head? ≠ some '%') (offset : Nat) :
    ∃ offset', renderPieces bindings statics (piecesFrom offset (escape t ++ rest)) =
      (renderPieces bindings statics (piecesFrom offset' rest)).prepend t := by
  fun_induction escape t generalizing offset with
  | case1 t ih =>
    have hseam' : t.getLast? = some '<' → rest.head? ≠ some '%' := by
      intro hlast
      apply hseam
      rw [List.getLast?_cons, List.getLast?_cons, hlast]
      rfl
    obtain ⟨offset', hrest⟩ := ih hseam' (offset + 3)
    refine ⟨offset', ?_⟩
    rw [List.cons_append, List.cons_append, List.cons_append, piecesFrom]
    change Rendering.andThen { result := .ok ['<', '%'] } _ = _
    rw [hrest, Rendering.andThen_ok, Rendering.prepend_prepend]
    rfl
  | case2 c t hmark ih =>
    have hnomark : ∀ u, c :: (escape t ++ rest) ≠ '<' :: '%' :: u := by
      rintro u heq
      obtain ⟨rfl, htail⟩ := List.cons.inj heq
      cases t with
      | nil =>
        apply hseam rfl
        rw [escape, List.nil_append] at htail
        rw [htail]
        rfl
      | cons d t =>
        have hhead : (escape (d :: t) ++ rest).head? = some d := by
          rw [List.head?_append, head?_escape]
          rfl
        rw [htail] at hhead
        cases hhead
        exact hmark t rfl rfl
    have hseam' : t.getLast? = some '<' → rest.head? ≠ some '%' := by
      intro hlast
      apply hseam
      rw [List.getLast?_cons, hlast]
      rfl
    obtain ⟨offset', hrest⟩ := ih hseam' (offset + c.utf8Size)
    refine ⟨offset', ?_⟩
    rw [List.cons_append, piecesFrom_cons hnomark]
    change Rendering.andThen { result := .ok [c] } _ = _
    rw [hrest, Rendering.andThen_ok, Rendering.prepend_prepend]
    rfl
  | case3 => exact ⟨offset, (Rendering.prepend_nil _).symm⟩

/-- A composed directive in front of a document is rendered as its value. -/
theorem renderPieces_composed {d : Directive} (hd : d.WellFormed) (rest : List Char)
    (offset : Nat) :
    ∃ offset', renderPieces bindings statics (piecesFrom offset (d.composed ++ rest)) =
      ({ d.evaluate bindings statics with directives := 1 } : Rendering).andThen
        (renderPieces bindings statics (piecesFrom offset' rest)) := by
  obtain ⟨offset', hpieces⟩ := piecesFrom_composed hd rest offset
  refine ⟨offset', ?_⟩
  rw [hpieces, renderPieces, Piece.render, hd.ofText?_composed]

end Template

end TabMarkup
