import TabMarkup.Proofs.Compilation.Nested
import TabMarkup.Proofs.Directive.Bytes

/-!
# Sources and composed documents agree about directives

A directive is read twice, byte by byte between the braces of a source and by cutting the text
between the marks of a composed document. The two readers accept the same texts, and what one of
them reads is what the other reads of the directive as it is written (`directive_texts_agree`).
-/

namespace TabMarkup

open Grammar

namespace Compilation

/-- A source whose lines are known compiles to the fragments that the depth counter gives for
them. -/
theorem exists_of_document {bytes : List UInt8} {lines : List Line}
    (hlines : Document 1 (bytes.splitOn 10) lines) :
    ∃ q, (compile (.ofBytes bytes)).result = .ok q ∧
      q.toList = Nesting.fragmentsOf 0 [] lines := by
  have hs : (Scanner.ofSource (Source.ofBytes bytes)).cursor.At { bytes } 1 false :=
    Cursor.at_ofBytes bytes
  have hstop : (Line.readAll (Scanner.ofSource (Source.ofBytes bytes))).stop? = none :=
    Scan.readAll_complete hs rfl fun w hw => hlines.lineText hw
  have hq : (compile (.ofBytes bytes)).result = .ok _ := ofReading_result_of_none hstop
  obtain ⟨bytes', lines', hdeliver, hlines', hfragments⟩ := exists_document hq
  rw [Source.deliver_ofBytes] at hdeliver
  cases hdeliver
  exact ⟨_, hq, by rw [hfragments, hlines'.unique hlines]⟩

/-- A line that is an embedding compiles to its directive, with a newline behind it or without. -/
theorem exists_of_embedding {w ending : List UInt8} {d : Directive} (hw : Embedding w d)
    (hending : ending = [] ∨ ending = [10]) :
    ∃ q, (compile (.ofBytes (w ++ ending))).result = .ok q ∧ q.toList = [.directive d] := by
  have hline : LineText 1 (tabs 0 ++ w) (.directive 0 d) := LineText.directive hw
  rcases hending with rfl | rfl
  · have hlines : Document 1 ((w ++ []).splitOn 10) [.directive 0 d] := by
      rw [List.append_nil, List.splitOn_eq_singleton hw.newline_notMem]
      exact Document.cons hline (Document.nil 2)
    exact exists_of_document hlines
  · have hblank : LineText 2 [] .blank := LineText.blank 0
    have hlines : Document 1 ((w ++ [10]).splitOn 10) [.directive 0 d, .blank] := by
      rw [List.splitOn_append_cons_self_of_not_mem hw.newline_notMem]
      exact Document.cons hline (Document.cons hblank (Document.nil 3))
    exact exists_of_document hlines

end Compilation

/-- Two directives with the same text are the same. -/
theorem Directive.HasParts.eq_of_body {d d' : Directive} (hd : d.HasParts) (hd' : d'.HasParts)
    (hbody : d'.body = d.body) : d' = d := by
  have htrim : Text.trim ([' '] ++ (d.body ++ [' '])) = d.body :=
    (wellFormed_iff.mpr hd).trim_body
  have hread : ofText? ([' '] ++ (d.body ++ [' '])) = some d := ofText?_eq_some_iff.mpr ⟨hd, htrim⟩
  have hread' : ofText? ([' '] ++ (d.body ++ [' '])) = some d' :=
    ofText?_eq_some_iff.mpr ⟨hd', htrim.trans hbody.symm⟩
  exact Option.some.inj (hread'.symm.trans hread)

/-- A text between the marks of a composed document is read as a directive exactly if it is, but
for white space around it, the text of one whose names are identifiers and paths; any other text is
refused as it stands. These are the directives that can stand between the braces of a source: each
of them is what its own line compiles to and is read back from its composed form, and nothing that
compiles has any other directive. -/
theorem directive_texts_agree :
    (∀ (text : List Char) (d : Directive),
      Directive.ofText? text = some d ↔ d.HasParts ∧ Text.trim text = d.body) ∧
    (∀ (text : List Char) (bindings : Bindings) (statics : Statics),
      (¬ ∃ d : Directive, d.HasParts ∧ Text.trim text = d.body) →
      (Template.Piece.directive text).render bindings statics =
        { result := .error (.malformedDirective (String.ofList (Text.trim text))) }) ∧
    (∀ d : Directive, d.HasParts →
      (∀ d' : Directive, d'.HasParts → d'.body = d.body → d' = d) ∧
      (∀ ending, (ending = [] ∨ ending = [10]) →
        ∃ q, (compile (.ofBytes (Utf8.encode (['\x7b', '\x7b'] ++ d.body ++ ['\x7d', '\x7d']) ++
            ending))).result = .ok q ∧
          q.toList = [.directive d]) ∧
      (Fragment.directive d).text =
        String.ofList (['<', '%', '=', ' '] ++ d.body ++ [' ', '%', '>']) ∧
      Template.pieces (Fragment.directive d).written =
        [.directive ([' '] ++ d.body ++ [' '])] ∧
      Directive.ofText? ([' '] ++ d.body ++ [' ']) = some d) ∧
    ∀ (source : Source) (q : FragmentQueue) (d : Directive),
      (compile source).result = .ok q → .directive d ∈ q.toList → d.HasParts := by
  refine ⟨fun text d => Directive.ofText?_eq_some_iff, ?_, ?_, ?_⟩
  · intro text bindings statics hnone
    have hread : Directive.ofText? text = none := by
      rw [Option.eq_none_iff_forall_ne_some]
      intro d hd
      exact hnone ⟨d, Directive.ofText?_eq_some_iff.mp hd⟩
    rw [Template.Piece.render, hread]
  · intro d hd
    have hwell : d.WellFormed := Directive.wellFormed_iff.mpr hd
    refine ⟨fun d' hd' hbody => hd.eq_of_body hd' hbody, ?_, rfl, ?_, ?_⟩
    · intro ending hending
      exact Compilation.exists_of_embedding hd.embedding hending
    · obtain ⟨offset, hpieces⟩ := Template.piecesFrom_composed hwell [] 0
      have hnil : Template.piecesFrom offset [] = [] := by rw [Template.piecesFrom]
      rw [List.append_nil, hnil, ← List.append_assoc] at hpieces
      exact hpieces
    · rw [List.append_assoc]
      exact hwell.ofText?_composed
  · intro source q d hq hmem
    have hwell : (Fragment.directive d).WellFormed := Compilation.wellFormed_of_mem hq _ hmem
    exact Directive.wellFormed_iff.mp hwell

/-- Four texts and what they are read as: `$a->b()` with spaces around it, a path with a backslash
in front, a method where a property should be, and two arrows. -/
example :
    Directive.ofText? " $a->b() ".toList = some (.call "a" "b") ∧
      Directive.ofText? "\\A\\B::$c".toList = some (.staticProperty "\\A\\B" "c") ∧
      Directive.ofText? "A::$c()".toList = none ∧
      Directive.ofText? "$a->b->c()".toList = none := by
  decide

end TabMarkup
