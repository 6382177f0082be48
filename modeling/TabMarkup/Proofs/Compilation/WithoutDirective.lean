import TabMarkup.Proofs.Compilation.Concatenation

/-!
# A source without one of its directive lines

A directive line that lies no less deep than the lines before it closes nothing and opens nothing,
but from it on the depth is counted from its own tabs. So without it the same fragments come out as
before, less the directive, exactly if the next line closes as many tags from the one depth as from
the other (`compile_without_directive`).
-/

namespace TabMarkup

open Grammar

/-! ## Two depths -/

namespace Nesting

/-- What stands in front of the first fragment that ends no tag can be told from it. -/
theorem closeTags_append_inj {names names' : List String} {f f' : Fragment}
    {fs fs' : List Fragment} (hf : ∀ name, f ≠ .closeTag name) (hf' : ∀ name, f' ≠ .closeTag name)
    (h : names.map .closeTag ++ f :: fs = names'.map .closeTag ++ f' :: fs') :
    names = names' := by
  induction names generalizing names' with
  | nil =>
    cases names' with
    | nil => rfl
    | cons name' names' => exact absurd (List.cons.inj h).1 (hf name')
  | cons name names ih =>
    cases names' with
    | nil => exact absurd (List.cons.inj h).1.symm (hf' name)
    | cons name' names' =>
      obtain ⟨hname, hrest⟩ := List.cons.inj h
      rw [Fragment.closeTag.inj hname, ih hrest]

/-- Lines put out the same from two depths exactly if the first of them that is not blank closes as
many tags from the one as from the other: once it is read, the depth is counted from it. -/
theorem fragmentsOf_eq_iff_closing {depth depth' : Nat} {opened : List String}
    (lines : List Line) :
    fragmentsOf depth opened lines = fragmentsOf depth' opened lines ↔
      ∀ tabs ∈ lines.findSome? Line.tabs?,
        closing depth opened tabs = closing depth' opened tabs := by
  induction lines with
  | nil => simp [fragmentsOf]
  | cons line lines ih =>
    cases h : line.tabs? with
    | none =>
      rw [List.findSome?_cons_of_isNone (by simp [h]), ← ih, Line.tabs?_eq_none.mp h]
      rfl
    | some tabs =>
      rw [List.findSome?_cons_of_isSome (by simp [h]), h, fragmentsOf_cons h, fragmentsOf_cons h]
      constructor
      · rintro heq _ ⟨⟩
        obtain ⟨f, fs, hline, hf⟩ := Line.exists_fragments h
        rw [hline, List.append_assoc, List.append_assoc, List.cons_append, List.cons_append] at heq
        have hlength := congrArg List.length (closeTags_append_inj hf hf heq)
        simpa [closing] using hlength
      · intro hclosing
        rw [hclosing tabs rfl]

end Nesting

/-- The outline after the lines that are read of a source. -/
def Source.outline (source : Source) : Outline :=
  Outline.ofLines source.lines

namespace Compilation

/-! ## Rows that compile -/

/-- Ended rows and what stands behind them compile exactly if each part does. -/
theorem compile_append_ok_iff {a : List UInt8} (ha : EndsLine a) (b : List UInt8) :
    (∃ q, (compile (.ofBytes (a ++ b))).result = .ok q) ↔
      (∃ q, (compile (.ofBytes a)).result = .ok q) ∧
        ∃ q, (compile (.ofBytes b)).result = .ok q := by
  have hrows (bytes : List UInt8) : (∃ q, (compile (.ofBytes bytes)).result = .ok q) ↔
      ∀ row ∈ rows bytes, (compile (.ofBytes row)).error? = none := by
    rw [← error?_eq_none_iff, error?_of_delivers (delivers_ofBytes bytes), firstError_eq_none_iff]
  rw [hrows, hrows, hrows, ha.rows_append, List.forall_mem_append]

/-- The lines that are read of a text are those of the text, but that a blank one may be missing at
the end. -/
theorem lines_of_document {bytes : List UInt8} {q : FragmentQueue} {lines : List Line}
    (hq : (compile (.ofBytes bytes)).result = .ok q)
    (hlines : Document 1 (bytes.splitOn 10) lines) :
    lines = (Source.ofBytes bytes).lines ∨ lines = (Source.ofBytes bytes).lines ++ [.blank] := by
  obtain ⟨_, bytes', trailing, hdeliver, htrailing, hread⟩ := exists_document_lines hq
  rw [Source.deliver_ofBytes] at hdeliver
  cases hdeliver
  rw [hlines.unique hread]
  rcases htrailing with rfl | rfl
  · exact Or.inl (List.append_nil _)
  · exact Or.inr rfl

/-- Behind ended rows that compile, a text puts out its fragments from where their outline is. -/
theorem toList_behind {a b : List UInt8} {q q' : FragmentQueue} {rest : List Line}
    (ha : EndsLine a) (hq : (compile (.ofBytes a)).result = .ok q)
    (hq' : (compile (.ofBytes (a ++ b))).result = .ok q')
    (hrest : Document (1 + a.count 10) (b.splitOn 10) rest) :
    q'.toList = (Source.ofBytes a).outline.fragments.toList ++
      Nesting.fragmentsOf (Source.ofBytes a).outline.depth
        (Source.ofBytes a).outline.openTags.names rest := by
  obtain ⟨lines, hlines, _⟩ := exists_document_ofBytes hq
  obtain ⟨before, rfl, hwhole⟩ := Document.append ha hlines hrest
  have hbefore : (Source.ofBytes a).outline = Outline.ofLines before := by
    unfold Source.outline
    rcases lines_of_document hq hlines with hread | hread
    · rw [← hread, Outline.ofLines_insert_blank, List.append_nil]
    · rw [List.append_cancel_right hread]
  rw [toList_of_document hq' hwhole, Outline.fragmentsOf_eq_append, hbefore]

end Compilation

open Compilation Nesting

/-- The line of a directive and the lines behind it, where nothing is behind it unless a newline
ends it. -/
theorem Grammar.Document.behind_directive {w row b : List UInt8} {number number' count : Nat}
    {d : Directive} {lines : List Line} (hw : LineText number w (.directive count d))
    (hrow : row = w ++ [10] ∨ row = w ∧ b = []) (hlines : Document 1 (b.splitOn 10) lines) :
    ∃ rest, Document number' ((row ++ b).splitOn 10) (.directive count d :: rest) ∧
      ∀ depth opened, fragmentsOf depth opened rest = fragmentsOf depth opened lines := by
  have hline : LineText number' w (.directive count d) := by
    cases hw with
    | directive hw => exact LineText.directive hw
  rcases hrow with rfl | ⟨rfl, rfl⟩
  · have hrest := hlines.moved number'
    rw [Nat.add_comm] at hrest
    refine ⟨_, ?_, fun depth opened => fragmentsOf_map_moved number' 0 depth opened lines⟩
    rw [List.append_assoc, List.singleton_append,
      List.splitOn_append_cons_self_of_not_mem hw.newline_notMem]
    exact Document.cons hline hrest
  · refine ⟨[], ?_, fun depth opened => ?_⟩
    · rw [List.append_nil, List.splitOn_eq_singleton hw.newline_notMem]
      exact Document.cons hline (Document.nil _)
    · rw [hlines.unique (Document.cons (LineText.blank 0) (Document.nil _))]
      rfl

/-- In a source that compiles, a directive stands on a line of its own, with no fewer tabs than the
depth there. Without that line the source compiles too. With it, the directive is put out between
what comes of the lines before it and what comes of those behind it; without it, the same comes out
less the directive exactly if the next line that is not blank, where there is one, closes as many
tags counted from the tabs of the directive as counted from the depth before it. -/
theorem compile_without_directive {a w row b : List UInt8} {number count : Nat} {d : Directive}
    {q : FragmentQueue} (ha : EndsLine a) (hw : LineText number w (.directive count d))
    (hrow : row = w ++ [10] ∨ row = w ∧ b = [])
    (hq : (compile (.ofBytes (a ++ row ++ b))).result = .ok q)
    (hdepth : (Source.ofBytes a).outline.depth ≤ count) :
    ∃ q' rest, (compile (.ofBytes (a ++ b))).result = .ok q' ∧
      q.toList = (Source.ofBytes a).outline.fragments.toList ++ .directive d :: rest ∧
      (q'.toList = (Source.ofBytes a).outline.fragments.toList ++ rest ↔
        ∀ tabs ∈ (Source.ofBytes b).lines.findSome? Line.tabs?,
          closing count (Source.ofBytes a).outline.openTags.names tabs =
            closing (Source.ofBytes a).outline.depth
              (Source.ofBytes a).outline.openTags.names tabs) := by
  rw [List.append_assoc] at hq
  obtain ⟨⟨qa, hqa⟩, hbehind⟩ := (compile_append_ok_iff ha (row ++ b)).mp ⟨q, hq⟩
  obtain ⟨qb, hqb⟩ : ∃ qb, (compile (.ofBytes b)).result = .ok qb := by
    rcases hrow with rfl | ⟨rfl, rfl⟩
    · have hended : EndsLine (w ++ [10]) := Or.inr List.getLast?_concat
      exact ((compile_append_ok_iff hended b).mp hbehind).2
    · exact ⟨{}, by decide +kernel⟩
  obtain ⟨q', hq'⟩ := (compile_append_ok_iff ha b).mpr ⟨⟨qa, hqa⟩, qb, hqb⟩
  obtain ⟨lines, hlines, _⟩ := exists_document_ofBytes hqb
  obtain ⟨rest, hrest, hsame⟩ := hlines.behind_directive hw hrow
  have hnone : closing (Source.ofBytes a).outline.depth
      (Source.ofBytes a).outline.openTags.names count = 0 := by
    rw [closing]
    omega
  have hwith := toList_behind ha hqa hq hrest
  rw [fragmentsOf, hnone, List.take_zero, List.drop_zero, hsame] at hwith
  have hwithout := toList_behind ha hqa hq' (hlines.moved (a.count 10))
  have hmoved : fragmentsOf (Source.ofBytes a).outline.depth
      (Source.ofBytes a).outline.openTags.names (lines.map (Line.moved (a.count 10) 0)) =
      fragmentsOf (Source.ofBytes a).outline.depth (Source.ofBytes a).outline.openTags.names
        lines := fragmentsOf_map_moved (a.count 10) 0 _ _ lines
  rw [hmoved] at hwithout
  have hnext : lines.findSome? Line.tabs? = (Source.ofBytes b).lines.findSome? Line.tabs? := by
    rcases lines_of_document hqb hlines with rfl | rfl
    · rfl
    · rw [List.findSome?_append]
      exact Option.or_none
  refine ⟨q', _, hq', hwith, ?_⟩
  rw [hwithout, List.append_cancel_left_eq, ← hnext, ← fragmentsOf_eq_iff_closing lines]
  exact eq_comm

/-- With three tabs, the embedding of `x` is a directive line. -/
theorem value_lineText (number : Nat) :
    LineText number [0x09, 0x09, 0x09, 0x7B, 0x7B, 0x24, 0x78, 0x7D, 0x7D]
      (.directive 3 (.value "x")) := by
  have hname : IsRun .identifier [0x78] := ⟨by decide, by decide +kernel⟩
  have htext : text [0x78] = "x" := by decide +kernel
  have hline : LineText number (tabs 3 ++ (ascii ['\x7b', '\x7b', '$'] ++ [0x78] ++
      ascii ['\x7d', '\x7d'])) (.directive 3 (.value (text [0x78]))) :=
    LineText.directive (Embedding.value hname)
  rwa [htext] at hline

/-- The lines are `ul`, with one tab `li`, and with three tabs the directive. A `p` at the margin
closes both tags whether the directive is there or not. -/
theorem compile_without_directive_before_margin :
    ∃ q q', (compile (.ofBytes ([0x75, 0x6C, 0x0A, 0x09, 0x6C, 0x69, 0x0A] ++
        ([0x09, 0x09, 0x09, 0x7B, 0x7B, 0x24, 0x78, 0x7D, 0x7D] ++ [0x0A]) ++
        [0x70]))).result = .ok q ∧
      (compile (.ofBytes ([0x75, 0x6C, 0x0A, 0x09, 0x6C, 0x69, 0x0A] ++ [0x70]))).result = .ok q' ∧
      q.toList = [.openTag "ul", .openTag "li", .directive (.value "x"), .closeTag "li",
        .closeTag "ul", .openTag "p", .closeTag "p"] ∧
      q'.toList = [.openTag "ul", .openTag "li", .closeTag "li", .closeTag "ul", .openTag "p",
        .closeTag "p"] := by
  have hended : EndsLine [0x75, 0x6C, 0x0A, 0x09, 0x6C, 0x69, 0x0A] := Or.inr rfl
  have houtline : (Source.ofBytes [0x75, 0x6C, 0x0A, 0x09, 0x6C, 0x69, 0x0A]).outline.depth = 2 ∧
      (Source.ofBytes [0x75, 0x6C, 0x0A, 0x09, 0x6C, 0x69, 0x0A]).outline.openTags.names =
        ["li", "ul"] ∧
      (Source.ofBytes [0x75, 0x6C, 0x0A, 0x09, 0x6C, 0x69, 0x0A]).outline.fragments.toList =
        [.openTag "ul", .openTag "li"] := by
    decide +kernel
  obtain ⟨hdepth, hnames, hfragments⟩ := houtline
  have hnext : (Source.ofBytes [0x70]).lines.findSome? Line.tabs? = some 0 := by decide +kernel
  have hq : (compile (.ofBytes ([0x75, 0x6C, 0x0A, 0x09, 0x6C, 0x69, 0x0A] ++
      ([0x09, 0x09, 0x09, 0x7B, 0x7B, 0x24, 0x78, 0x7D, 0x7D] ++ [0x0A]) ++ [0x70]))).result =
      .ok { fragments := #[.openTag "ul", .openTag "li", .directive (.value "x"), .closeTag "li",
        .closeTag "ul", .openTag "p", .closeTag "p"] } := by
    decide +kernel
  obtain ⟨q', rest, hq', hwith, hiff⟩ := compile_without_directive hended (value_lineText 3)
    (Or.inl rfl) hq (by rw [hdepth]; decide)
  rw [hdepth, hnames, hnext, hfragments] at hiff
  rw [hfragments] at hwith
  have hrest : rest = [.closeTag "li", .closeTag "ul", .openTag "p", .closeTag "p"] := by
    simpa [FragmentQueue.toList] using hwith.symm
  refine ⟨_, q', hq, hq', rfl, ?_⟩
  have hwithout : q'.toList = [.openTag "ul", .openTag "li"] ++ rest := by
    apply hiff.mpr
    rintro tabs ⟨⟩
    decide
  rw [hwithout, hrest]
  rfl

/-- With a `p` of two tabs behind it, the same directive does make a difference: the `p` then closes
the `li`, which it stands inside of without the directive. -/
theorem compile_without_directive_before_deeper :
    LineText 3 [0x09, 0x09, 0x09, 0x7B, 0x7B, 0x24, 0x78, 0x7D, 0x7D]
      (.directive 3 (.value "x")) ∧
    (Source.ofBytes [0x75, 0x6C, 0x0A, 0x09, 0x6C, 0x69, 0x0A]).outline.depth ≤ 3 ∧
    ∃ q q', (compile (.ofBytes ([0x75, 0x6C, 0x0A, 0x09, 0x6C, 0x69, 0x0A] ++
        ([0x09, 0x09, 0x09, 0x7B, 0x7B, 0x24, 0x78, 0x7D, 0x7D] ++ [0x0A]) ++
        [0x09, 0x09, 0x70, 0x0A]))).result = .ok q ∧
      (compile (.ofBytes ([0x75, 0x6C, 0x0A, 0x09, 0x6C, 0x69, 0x0A] ++
        [0x09, 0x09, 0x70, 0x0A]))).result = .ok q' ∧
      q.toList = [.openTag "ul", .openTag "li", .directive (.value "x"), .closeTag "li",
        .openTag "p", .closeTag "p", .closeTag "ul"] ∧
      q'.toList ≠ [.openTag "ul", .openTag "li", .closeTag "li", .openTag "p", .closeTag "p",
        .closeTag "ul"] := by
  have hq : (compile (.ofBytes ([0x75, 0x6C, 0x0A, 0x09, 0x6C, 0x69, 0x0A] ++
      ([0x09, 0x09, 0x09, 0x7B, 0x7B, 0x24, 0x78, 0x7D, 0x7D] ++ [0x0A]) ++
      [0x09, 0x09, 0x70, 0x0A]))).result =
      .ok { fragments := #[.openTag "ul", .openTag "li", .directive (.value "x"), .closeTag "li",
        .openTag "p", .closeTag "p", .closeTag "ul"] } := by
    decide +kernel
  have hq' : (compile (.ofBytes ([0x75, 0x6C, 0x0A, 0x09, 0x6C, 0x69, 0x0A] ++
      [0x09, 0x09, 0x70, 0x0A]))).result =
      .ok { fragments := #[.openTag "ul", .openTag "li", .openTag "p", .closeTag "p",
        .closeTag "li", .closeTag "ul"] } := by
    decide +kernel
  exact ⟨value_lineText 3, by decide +kernel, _, _, hq, hq', rfl, by decide⟩

end TabMarkup
