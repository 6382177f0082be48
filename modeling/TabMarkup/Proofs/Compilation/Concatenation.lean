import Mathlib.Control.Monad.Basic
import TabMarkup.Proofs.Compilation.FirstError

/-!
# One source behind another

A source of whole lines leaves nothing behind that a line at the margin does not close, however
deep its own last lines are. So where another source that begins at the margin is put behind it,
each compiles as it does on its own, only that the lines of the second one are further down
(`compile_append`).
-/

namespace TabMarkup

namespace Grammar

/-- The first line that is not only tabs, if there is one, has no tab in front. -/
def BeginsAtMargin (bytes : List UInt8) : Prop :=
  ∀ w ∈ (bytes.splitOn 10).find? (·.any (· != 9)), w.head? ≠ some 9

/-- The blank lines are those of tabs only. -/
theorem LineText.any_ne_tab {number : Nat} {w : List UInt8} {line : Line}
    (hw : LineText number w line) : w.any (· != 9) = line.tabs?.isSome := by
  cases h : line.tabs? with
  | none =>
    rw [Line.tabs?_eq_none.mp h] at hw
    cases hw with
    | blank count => simp [tabs]
  | some count =>
    obtain ⟨b, v, rfl, hb⟩ := hw.exists_content h
    simp [hb]

/-- A document begins at the margin if its text does. -/
theorem Document.tabs_eq_zero {number count : Nat} {ws : List (List UInt8)} {lines : List Line}
    (hws : Document number ws lines)
    (hmargin : ∀ w ∈ ws.find? (·.any (· != 9)), w.head? ≠ some 9)
    (hcount : lines.findSome? Line.tabs? = some count) : count = 0 := by
  induction hws with
  | nil number => cases hcount
  | @cons number w line ws lines hw hws ih =>
    have hany : w.any (· != 9) = line.tabs?.isSome := hw.any_ne_tab
    cases h : line.tabs? with
    | none =>
      rw [List.find?_cons_of_neg (by simp [hany, h])] at hmargin
      rw [List.findSome?_cons_of_isNone (by simp [h])] at hcount
      exact ih hmargin hcount
    | some indent =>
      obtain ⟨b, v, rfl, _⟩ := hw.exists_content h
      rw [List.find?_cons_of_pos (by simp [hany, h])] at hmargin
      rw [List.findSome?_cons_of_isSome (by simp [h]), h] at hcount
      cases hcount
      cases count with
      | zero => rfl
      | succ count => exact absurd rfl (hmargin _ rfl)

/-- Behind whole lines a document goes on with the lines of what is put there. Only the empty line
behind the last newline is gone. -/
theorem Document.append {number : Nat} {a b : List UInt8} {lines rest : List Line}
    (ha : EndsLine a) (hlines : Document number (a.splitOn 10) lines)
    (hrest : Document (number + a.count 10) (b.splitOn 10) rest) :
    ∃ before, lines = before ++ [.blank] ∧
      Document number ((a ++ b).splitOn 10) (before ++ rest) := by
  induction a using newlineInduction generalizing number lines with
  | last w hw =>
    rw [ha.eq_nil hw] at hlines hrest ⊢
    cases hlines with
    | cons hline hnone =>
      cases hnone
      rw [hline.unique (LineText.blank 0)]
      exact ⟨[], rfl, hrest⟩
  | newline w a hw ih =>
    rw [List.splitOn_append_cons_self_of_not_mem hw] at hlines
    rw [List.append_assoc, List.cons_append, List.splitOn_append_cons_self_of_not_mem hw]
    cases hlines with
    | @cons _ _ line _ lines hline hlines =>
      rw [List.count_append, List.count_eq_zero_of_not_mem hw, List.count_cons_self, Nat.zero_add,
        Nat.add_comm (a.count 10), ← Nat.add_assoc] at hrest
      obtain ⟨before, rfl, hbefore⟩ := ih ha.of_append hlines hrest
      exact ⟨line :: before, rfl, Document.cons hline hbefore⟩

end Grammar

open Compilation Grammar

/-- Whole lines, and behind them something that begins at the margin: what is wrong with the first
part is wrong with the whole, on the same line; what is wrong with the second part is wrong further
down if the first part compiles; and if both parts compile, the whole gives the fragments of the
first and then those of the second. -/
theorem compile_append {a b : List UInt8} (ha : EndsLine a) (hb : BeginsAtMargin b) :
    (∀ e, (compile (.ofBytes a)).result = .error e →
      (compile (.ofBytes (a ++ b))).result = .error e) ∧
    (∀ qa e, (compile (.ofBytes a)).result = .ok qa → (compile (.ofBytes b)).result = .error e →
      (compile (.ofBytes (a ++ b))).result = .error ⟨e.fault, e.line + a.count 10⟩) ∧
    ∀ qa qb, (compile (.ofBytes a)).result = .ok qa → (compile (.ofBytes b)).result = .ok qb →
      ∃ q, (compile (.ofBytes (a ++ b))).result = .ok q ∧ q.toList = qa.toList ++ qb.toList := by
  have hfirst (bytes : List UInt8) :
      (compile (.ofBytes bytes)).error? = firstError 1 (rows bytes) :=
    error?_of_delivers (delivers_ofBytes bytes)
  have hwhole : (compile (.ofBytes (a ++ b))).error? = firstError 1 (rows a ++ rows b) := by
    rw [hfirst, ha.rows_append]
  have hbehind {qa : FragmentQueue} (hqa : (compile (.ofBytes a)).result = .ok qa) :
      (compile (.ofBytes (a ++ b))).error? =
        (compile (.ofBytes b)).error?.map fun e => ⟨e.fault, e.line + a.count 10⟩ :=
    error?_behind ha ⟨qa, hqa⟩ (delivers_ofBytes (a ++ b))
  refine ⟨fun e he => ?_, fun qa e hqa he => ?_, fun qa qb hqa hqb => ?_⟩
  · rw [← error?_eq_some_iff, hfirst] at he
    rw [← error?_eq_some_iff, hwhole]
    exact firstError_append_of_some he (rows b)
  · rw [← error?_eq_some_iff] at he ⊢
    rw [hbehind hqa, he, Option.map_some]
  · obtain ⟨q, hq⟩ : ∃ q, (compile (.ofBytes (a ++ b))).result = .ok q := by
      rw [← error?_eq_none_iff, hbehind hqa, error?_eq_none_iff.mpr ⟨qb, hqb⟩, Option.map_none]
    obtain ⟨linesA, hlinesA, hfragmentsA⟩ := exists_document_ofBytes hqa
    obtain ⟨linesB, hlinesB, hfragmentsB⟩ := exists_document_ofBytes hqb
    obtain ⟨before, rfl, hlines⟩ := Document.append ha hlinesA (hlinesB.moved (a.count 10))
    have hmargin : ∀ tabs ∈ (linesB.map (Line.moved (a.count 10) 0)).findSome? Line.tabs?,
        tabs = 0 :=
      fun tabs => (hlinesB.moved (a.count 10)).tabs_eq_zero hb
    refine ⟨q, hq, ?_⟩
    calc q.toList
        = Nesting.fragmentsOf 0 [] (before ++ linesB.map (Line.moved (a.count 10) 0)) :=
          toList_of_document hq hlines
      _ = Nesting.fragmentsOf 0 [] before ++ Nesting.fragmentsOf 0 [] linesB := by
          rw [Nesting.fragmentsOf_append hmargin (Nat.le_refl 0)]
          exact congrArg _ (Nesting.fragmentsOf_map_moved (a.count 10) 0 0 [] linesB)
      _ = qa.toList ++ qb.toList := by
          rw [hfragmentsA, hfragmentsB, Nesting.fragmentsOf_append_blank]

/-- The first part is `ul` and, with three tabs, `li`. Behind it stands a blank line and `p`, or an
empty line and `p|`, which lacks its text; the latter is wrong on its second line, which is then the
fourth. -/
theorem compile_append_to_overIndented :
    (∃ q, (compile (.ofBytes ([0x75, 0x6C, 0x0A, 0x09, 0x09, 0x09, 0x6C, 0x69, 0x0A] ++
        [0x09, 0x09, 0x0A, 0x70, 0x0A]))).result = .ok q ∧
      q.toList = [.openTag "ul", .openTag "li", .closeTag "li", .closeTag "ul"] ++
        [.openTag "p", .closeTag "p"]) ∧
    (compile (.ofBytes ([0x75, 0x6C, 0x0A, 0x09, 0x09, 0x09, 0x6C, 0x69, 0x0A] ++
      [0x0A, 0x70, 0x7C, 0x0A]))).result = .error ⟨.unexpectedByte .content 10, 4⟩ ∧
    (compile (.ofBytes ([0x70, 0x7C, 0x0A] ++ [0x09, 0x09, 0x0A, 0x70, 0x0A]))).result =
      .error ⟨.unexpectedByte .content 10, 1⟩ := by
  have hlist : (compile (.ofBytes [0x75, 0x6C, 0x0A, 0x09, 0x09, 0x09, 0x6C, 0x69, 0x0A])).result =
      .ok { fragments := #[.openTag "ul", .openTag "li", .closeTag "li", .closeTag "ul"] } := by
    decide +kernel
  have hplain : (compile (.ofBytes [0x09, 0x09, 0x0A, 0x70, 0x0A])).result =
      .ok { fragments := #[.openTag "p", .closeTag "p"] } := by
    decide +kernel
  have hbad : (compile (.ofBytes [0x0A, 0x70, 0x7C, 0x0A])).result =
      .error ⟨.unexpectedByte .content 10, 2⟩ := by
    decide +kernel
  have hbad' : (compile (.ofBytes [0x70, 0x7C, 0x0A])).result =
      .error ⟨.unexpectedByte .content 10, 1⟩ := by
    decide +kernel
  have hmargin : BeginsAtMargin [0x09, 0x09, 0x0A, 0x70, 0x0A] := by
    unfold BeginsAtMargin
    decide +kernel
  have hmargin' : BeginsAtMargin [0x0A, 0x70, 0x7C, 0x0A] := by
    unfold BeginsAtMargin
    decide +kernel
  have hlines : EndsLine [0x75, 0x6C, 0x0A, 0x09, 0x09, 0x09, 0x6C, 0x69, 0x0A] := Or.inr rfl
  have hlines' : EndsLine [0x70, 0x7C, 0x0A] := Or.inr rfl
  obtain ⟨_, _, hok⟩ := compile_append hlines hmargin
  obtain ⟨_, hsecond, _⟩ := compile_append hlines hmargin'
  obtain ⟨hfirst, _, _⟩ := compile_append hlines' hmargin
  exact ⟨hok _ _ hlist hplain, hsecond _ _ hlist hbad, hfirst _ hbad'⟩

end TabMarkup
