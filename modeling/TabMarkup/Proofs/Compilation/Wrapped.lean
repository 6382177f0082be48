import TabMarkup.Proofs.Compilation.FirstError

/-!
# A source inside another tag

The rows of a source stand one tab further in below a `div`. What is wrong with the source is then
wrong one line further down, and a source that compiles still does. The tag is closed behind all
that the source gives exactly if no line of the source closes more levels than it has open tags:
such a line, which stands below one that was too deep, closes the tag around it too
(`compile_wrapped`).
-/

namespace TabMarkup

open Grammar Scan

/-! ## Indenting -/

/-- A row one tab further in, unless its tabs are followed by its newline. -/
def indentRow (row : List UInt8) : List UInt8 :=
  if (row.dropWhile (· == 9)).head? = some 10 then row else 9 :: row

/-- A text with all its rows one tab further in. -/
def indented (bytes : List UInt8) : List UInt8 :=
  ((rows bytes).map indentRow).flatten

/-- A text inside a `div`. -/
def wrapped (bytes : List UInt8) : List UInt8 :=
  ascii ['d', 'i', 'v'] ++ 10 :: indented bytes

/-- A row without a newline is indented. -/
theorem indentRow_of_notMem {w : List UInt8} (hw : (10 : UInt8) ∉ w) : indentRow w = 9 :: w := by
  have hhead : (w.dropWhile (· == 9)).head? ≠ some 10 := fun h =>
    hw ((List.dropWhile_sublist _).mem (List.mem_of_head? h))
  rw [indentRow, if_neg hhead]

/-- Indented, an ended row is ended still, and says the same one line further down and one tab
further in. -/
theorem indentRow_newline {w : List UInt8} (hw : (10 : UInt8) ∉ w) :
    ∃ w', (10 : UInt8) ∉ w' ∧ indentRow (w ++ [10]) = w' ++ [10] ∧
      ∀ number line, LineText number w line → LineText (number + 1) w' (line.moved 1 1) := by
  obtain ⟨count, v, _, rfl, _, _, hv, _⟩ := (SameFirstLine.refl w).exists_tabs
  have hbehind : ((tabs count ++ v ++ [10]).dropWhile (· == 9)) = v ++ [10] := by
    rw [List.append_assoc, dropWhile_tabs_append]
    cases v with
    | nil => rfl
    | cons b v =>
      have hb : b ≠ 9 := ne_of_beq_false (hv b rfl)
      exact List.dropWhile_cons_of_neg (by simpa using hb)
  cases v with
  | nil =>
    refine ⟨tabs count ++ [], hw, by rw [indentRow, if_pos (by rw [hbehind]; rfl)], ?_⟩
    intro number line hline
    rw [List.append_nil] at hline ⊢
    rw [hline.unique (LineText.blank count)]
    exact LineText.blank count
  | cons b v =>
    refine ⟨9 :: (tabs count ++ b :: v), by simpa using hw, ?_, fun number line hline =>
      hline.moved 1 1⟩
    have hb : b ≠ 10 := by
      rintro rfl
      exact hw (by simp)
    rw [indentRow, if_neg (by rw [hbehind]; simpa using hb), List.cons_append]

theorem indented_newline {w : List UInt8} (hw : (10 : UInt8) ∉ w) (rest : List UInt8) :
    indented (w ++ 10 :: rest) = indentRow (w ++ [10]) ++ indented rest := by
  rw [indented, rows_append_newline hw, List.map_cons, List.flatten_cons]
  rfl

theorem indented_of_notMem {w : List UInt8} (hne : w ≠ []) (hw : (10 : UInt8) ∉ w) :
    indented w = 9 :: w := by
  rw [indented, rows_of_notMem hne hw, List.map_singleton, indentRow_of_notMem hw]
  simp

/-- The rows of an indented text are its rows, indented. -/
theorem rows_indented (bytes : List UInt8) :
    rows (indented bytes) = (rows bytes).map indentRow := by
  induction bytes using newlineInduction with
  | last w hw =>
    by_cases hne : w = []
    · rw [hne]
      rfl
    · rw [indented_of_notMem hne hw, rows_of_notMem hne hw, List.map_singleton,
        indentRow_of_notMem hw, rows_of_notMem (List.cons_ne_nil _ _) (by simpa using hw)]
  | newline w rest hw ih =>
    obtain ⟨w', hw', hrow, _⟩ := indentRow_newline hw
    rw [indented_newline hw, rows_append_newline hw, List.map_cons, hrow, List.append_assoc,
      List.singleton_append, rows_append_newline hw', ih]

/-- What an indented text says is what the text says, one line further down and one tab further
in. -/
theorem Grammar.Document.indented {number : Nat} {bytes : List UInt8} {lines : List Line}
    (hlines : Document number (bytes.splitOn 10) lines) :
    Document (number + 1) ((TabMarkup.indented bytes).splitOn 10)
      (lines.map (Line.moved 1 1)) := by
  induction bytes using newlineInduction generalizing number lines with
  | last w hw =>
    by_cases hne : w = []
    · rw [hne] at hlines ⊢
      cases hlines with
      | cons hline hnone =>
        cases hnone
        rw [hline.unique (LineText.blank 0)]
        exact Document.cons (LineText.blank 0) (Document.nil _)
    · rw [List.splitOn_eq_singleton hw] at hlines
      rw [indented_of_notMem hne hw, List.splitOn_eq_singleton (by simpa using hw)]
      cases hlines with
      | cons hline hnone =>
        cases hnone
        exact Document.cons (hline.moved 1 1) (Document.nil _)
  | newline w rest hw ih =>
    obtain ⟨w', hw', hrow, hsame⟩ := indentRow_newline hw
    rw [List.splitOn_append_cons_self_of_not_mem hw] at hlines
    rw [indented_newline hw, hrow, List.append_assoc, List.singleton_append,
      List.splitOn_append_cons_self_of_not_mem hw']
    cases hlines with
    | cons hline hlines => exact Document.cons (hsame _ _ hline) (ih hlines)

namespace Compilation

/-! ## What is wrong -/

/-- A tab in front of a row does not change what is wrong with it. -/
theorem fault?_tab {row : List UInt8} (hrow : rows row = [row]) :
    (compile (.ofBytes (9 :: row))).error?.map (·.fault) =
      (compile (.ofBytes row)).error?.map (·.fault) := by
  have hrow' : rows (9 :: row) = [9 :: row] := by
    rw [rows, if_neg (by decide), hrow]
  obtain ⟨count, w, w', hbytes, hbytes', hsame, hw, hw'⟩ := (SameFirstLine.refl row).exists_tabs
  have hs : (Scanner.ofSource (Source.ofBytes (9 :: row))).cursor.At
      { bytes := tabs (count + 1) ++ w } 1 false := by
    have hcursor := Cursor.at_ofBytes (9 :: row)
    rwa [hbytes] at hcursor ⊢
  have ht : (Scanner.ofSource (Source.ofBytes row)).cursor.At
      { bytes := tabs count ++ w' } 1 false := by
    rw [← hbytes']
    exact Cursor.at_ofBytes row
  have halike := alike_read_behind_tabs hsame hw hw' hs ht rfl rfl
  rw [error?_compile, error?_compile]
  generalize hread : Line.read (Scanner.ofSource (Source.ofBytes (9 :: row))) = r at halike
  generalize hread' : Line.read (Scanner.ofSource (Source.ofBytes row)) = r' at halike
  cases halike with
  | cut hcut => exact hcut.elim
  | error hstop =>
    rw [Line.readAll_of_error hread, Line.readAll_of_error hread']
    exact congrArg some hstop.1.1
  | ok =>
    rw [readAll_of_only_row (Cursor.at_ofBytes (9 :: row)) hrow' hread,
      readAll_of_only_row (Cursor.at_ofBytes row) hrow hread']

/-- Where rows are changed so that the same is wrong with each, the same is first wrong. -/
theorem firstError_map {f : List UInt8 → List UInt8} {rs : List (List UInt8)}
    (hrs : ∀ row ∈ rs, (compile (.ofBytes (f row))).error?.map (·.fault) =
      (compile (.ofBytes row)).error?.map (·.fault)) (number : Nat) :
    firstError number (rs.map f) = firstError number rs := by
  induction rs generalizing number with
  | nil => rfl
  | cons row rest ih =>
    obtain ⟨hrow, hrest⟩ := List.forall_mem_cons.mp hrs
    rw [List.map_cons]
    cases he : (compile (.ofBytes row)).error? with
    | none =>
      rw [he, Option.map_none, Option.map_eq_none_iff] at hrow
      rw [firstError_of_none he, firstError_of_none hrow, ih hrest]
    | some e =>
      rw [he, Option.map_some, Option.map_eq_some_iff] at hrow
      obtain ⟨e', he', hfault⟩ := hrow
      rw [firstError_of_some he, firstError_of_some he', hfault]

/-- What is wrong with a text is wrong with it inside a `div`, one line further down. -/
theorem error?_wrapped (bytes : List UInt8) :
    (compile (.ofBytes (wrapped bytes))).error? =
      (compile (.ofBytes bytes)).error?.map fun e => ⟨e.fault, e.line + 1⟩ := by
  have hfault : ∀ row ∈ rows bytes, (compile (.ofBytes (indentRow row))).error?.map (·.fault) =
      (compile (.ofBytes row)).error?.map (·.fault) := by
    intro row hrow
    unfold indentRow
    split
    · rfl
    · exact fault?_tab (rows_of_mem_rows hrow)
  have hdiv : (compile (.ofBytes (ascii ['d', 'i', 'v'] ++ [10]))).error? = none := by
    decide +kernel
  calc (compile (.ofBytes (wrapped bytes))).error?
      = firstError 1 ((ascii ['d', 'i', 'v'] ++ [10]) :: (rows bytes).map indentRow) := by
        rw [error?_of_delivers (delivers_ofBytes _), wrapped, rows_append_newline (by decide),
          rows_indented]
    _ = firstError (1 + 1) (rows bytes) := by
        rw [firstError_of_none hdiv, firstError_map hfault]
    _ = (compile (.ofBytes bytes)).error?.map fun e => ⟨e.fault, e.line + 1⟩ := by
        rw [firstError_add, error?_of_delivers (delivers_ofBytes bytes)]

end Compilation

/-! ## The tag around -/

/-- The row in front says a `div`. -/
theorem div_lineText : LineText 1 (ascii ['d', 'i', 'v']) (.tag 0 1 "div" .bare) := by
  have hname : IsRun .letter (ascii ['d', 'i', 'v']) := ⟨by decide, by decide +kernel⟩
  have htext : text (ascii ['d', 'i', 'v']) = "div" := by decide +kernel
  have htag : LineText 1 (tabs 0 ++ ascii ['d', 'i', 'v'] ++ [])
      (.tag 0 1 (text (ascii ['d', 'i', 'v'])) .bare) := LineText.tag hname BodyText.bare
  rwa [htext] at htag

/-- What holds of all splits of a list holds of its front and of the splits behind it. -/
theorem forall_split_cons {α : Type} {p : List α → α → Prop} {a : α} {as : List α} :
    (∀ before x after, a :: as = before ++ x :: after → p before x) ↔
      p [] a ∧ ∀ before x after, as = before ++ x :: after → p (a :: before) x := by
  constructor
  · intro h
    exact ⟨h [] a as rfl, fun before x after heq =>
      h (a :: before) x after (congrArg (a :: ·) heq)⟩
  · rintro ⟨hfront, hrest⟩ before x after heq
    cases before with
    | nil =>
      obtain ⟨rfl, _⟩ := List.cons.inj heq
      exact hfront
    | cons b before =>
      obtain ⟨rfl, htail⟩ := List.cons.inj heq
      exact hrest before x after htail

namespace Outline

open Nesting

/-- The line asks to close no more tags than are open. -/
def ClosesOpen (o : Outline) (line : Line) : Prop :=
  ∀ tabs ∈ line.tabs?, o.depth - tabs ≤ o.openTags.names.length

/-- What closes no more tags than are open leaves a tag around them open. -/
theorem closing_around_of_le {depth tabs : Nat} {opened : List String}
    (h : depth - tabs ≤ opened.length) (name : String) :
    (opened ++ [name]).take (closing depth (opened ++ [name]) tabs) =
        opened.take (closing depth opened tabs) ∧
      (opened ++ [name]).drop (closing depth (opened ++ [name]) tabs) =
        opened.drop (closing depth opened tabs) ++ [name] := by
  have haround : depth - tabs ≤ (opened ++ [name]).length := by
    rw [List.length_append]
    omega
  rw [closing_eq_sub haround, closing_eq_sub h, List.take_append_of_le_length h,
    List.drop_append_of_le_length h]
  exact ⟨rfl, rfl⟩

/-- With one more tag open around all, lines put out the same and then close that tag, exactly if
none of them asks to close more tags than are open. -/
theorem fragmentsOf_around_iff (o : Outline) (name : String) (lines : List Line) :
    fragmentsOf o.depth (o.openTags.names ++ [name]) lines =
        fragmentsOf o.depth o.openTags.names lines ++ [.closeTag name] ↔
      ∀ before line after, lines = before ++ line :: after →
        (before.foldl add o).ClosesOpen line := by
  induction lines generalizing o with
  | nil => simp [fragmentsOf]
  | cons line lines ih =>
    rw [forall_split_cons]
    simp only [List.foldl_cons]
    rw [← ih (o.add line)]
    cases h : line.tabs? with
    | none =>
      rw [Line.tabs?_eq_none.mp h]
      simp [ClosesOpen, Line.tabs?, fragmentsOf, add]
    | some tabs =>
      obtain ⟨hnames, _, hdepth⟩ := add_eq o h
      have hcloses : (List.foldl add o []).ClosesOpen line ↔
          o.depth - tabs ≤ o.openTags.names.length := by
        simp [ClosesOpen, h]
      rw [fragmentsOf_cons h, fragmentsOf_cons h, hnames, hdepth, hcloses]
      by_cases hle : o.depth - tabs ≤ o.openTags.names.length
      · obtain ⟨htake, hdrop⟩ := closing_around_of_le hle name
        rw [htake, hdrop]
        simp [hle]
      · -- The tag around is closed before what the line puts out, not at the end.
        have haround : (o.openTags.names ++ [name]).length ≤ o.depth - tabs := by
          rw [List.length_append, List.length_singleton]
          omega
        obtain ⟨f, fs, hf, hopens⟩ := Line.exists_fragments h
        have hne : Fragment.closeTag name ≠ f := (hopens name).symm
        rw [closing_eq_length haround, closing_eq_length (Nat.le_of_not_le hle), List.take_length,
          List.take_length, hf]
        simp [hle, hne]

end Outline

open Compilation

/-- Inside a `div`, what is wrong with a text is wrong one line further down. A text that compiles
still does; its fragments then stand between the two ends of the `div` exactly if none of its lines
asks to close more tags than are open before it. -/
theorem compile_wrapped (bytes : List UInt8) :
    (∀ e, (compile (.ofBytes bytes)).result = .error e →
      (compile (.ofBytes (wrapped bytes))).result = .error ⟨e.fault, e.line + 1⟩) ∧
    ∀ q, (compile (.ofBytes bytes)).result = .ok q →
      ∃ q', (compile (.ofBytes (wrapped bytes))).result = .ok q' ∧
        (q'.toList = .openTag "div" :: q.toList ++ [.closeTag "div"] ↔
          ∀ before line after, (Source.ofBytes bytes).lines = before ++ line :: after →
            (Outline.ofLines before).ClosesOpen line) := by
  refine ⟨fun e he => ?_, fun q hq => ?_⟩
  · rw [← error?_eq_some_iff] at he ⊢
    rw [error?_wrapped, he, Option.map_some]
  · obtain ⟨q', hq'⟩ : ∃ q', (compile (.ofBytes (wrapped bytes))).result = .ok q' := by
      rw [← error?_eq_none_iff, error?_wrapped, error?_eq_none_iff.mpr ⟨q, hq⟩, Option.map_none]
    obtain ⟨hfragments, bytes', trailing, hdeliver, htrailing, hlines⟩ := exists_document_lines hq
    rw [Source.deliver_ofBytes] at hdeliver
    cases hdeliver
    have hwrapped : Document 1 ((wrapped bytes).splitOn 10) (.tag 0 1 "div" .bare ::
        ((Source.ofBytes bytes).lines ++ trailing).map (Line.moved 1 1)) := by
      rw [wrapped, List.splitOn_append_cons_self_of_not_mem (by decide)]
      exact Document.cons div_lineText hlines.indented
    have hinside : Nesting.fragmentsOf 0 ["div"] ((Source.ofBytes bytes).lines ++ trailing) =
        Nesting.fragmentsOf 0 ["div"] (Source.ofBytes bytes).lines := by
      rcases htrailing with rfl | rfl
      · rw [List.append_nil]
      · exact Nesting.fragmentsOf_append_blank 0 ["div"] _
    have hfragments' : q'.toList =
        .openTag "div" :: Nesting.fragmentsOf 0 ["div"] (Source.ofBytes bytes).lines := by
      rw [toList_of_document hq' hwrapped, ← hinside]
      exact congrArg (.openTag "div" :: ·) (Nesting.fragmentsOf_map_moved 1 1 0 ["div"] _)
    refine ⟨q', hq', ?_⟩
    rw [hfragments', hfragments, List.cons_append, List.cons_inj_right]
    exact Outline.fragmentsOf_around_iff {} "div" (Source.ofBytes bytes).lines

/-- The lines are `ul`, with three tabs `li`, and with one tab `p`, which asks to close three tags
where two are open. Inside the `div` it closes that too, which `li` with one tab does not do. -/
theorem compile_wrapped_of_overIndented :
    (∃ q q', (compile (.ofBytes [0x75, 0x6C, 0x0A, 0x09, 0x09, 0x09, 0x6C, 0x69, 0x0A, 0x09,
        0x70, 0x0A])).result = .ok q ∧
      (compile (.ofBytes (wrapped [0x75, 0x6C, 0x0A, 0x09, 0x09, 0x09, 0x6C, 0x69, 0x0A, 0x09,
        0x70, 0x0A]))).result = .ok q' ∧
      q'.toList ≠ .openTag "div" :: q.toList ++ [.closeTag "div"]) ∧
    ∃ q q', (compile (.ofBytes [0x75, 0x6C, 0x0A, 0x09, 0x6C, 0x69])).result = .ok q ∧
      (compile (.ofBytes (wrapped [0x75, 0x6C, 0x0A, 0x09, 0x6C, 0x69]))).result = .ok q' ∧
      q'.toList = .openTag "div" :: q.toList ++ [.closeTag "div"] := by
  constructor
  · obtain ⟨q, hq⟩ : ∃ q, (compile (.ofBytes [0x75, 0x6C, 0x0A, 0x09, 0x09, 0x09, 0x6C, 0x69, 0x0A,
        0x09, 0x70, 0x0A])).result = .ok q := by
      apply error?_eq_none_iff.mp
      decide +kernel
    have hlines : (Source.ofBytes [0x75, 0x6C, 0x0A, 0x09, 0x09, 0x09, 0x6C, 0x69, 0x0A, 0x09,
        0x70, 0x0A]).lines =
        [.tag 0 1 "ul" .bare, .tag 3 2 "li" .bare] ++ .tag 1 3 "p" .bare :: [] := by
      decide +kernel
    obtain ⟨_, hok⟩ := compile_wrapped [0x75, 0x6C, 0x0A, 0x09, 0x09, 0x09, 0x6C, 0x69, 0x0A, 0x09,
      0x70, 0x0A]
    obtain ⟨q', hq', hiff⟩ := hok q hq
    refine ⟨q, q', hq, hq', fun heq => ?_⟩
    have hcloses := hiff.mp heq _ _ _ hlines 1 rfl
    exact absurd hcloses (by decide)
  · obtain ⟨q, hq⟩ : ∃ q, (compile (.ofBytes [0x75, 0x6C, 0x0A, 0x09, 0x6C, 0x69])).result =
        .ok q := by
      apply error?_eq_none_iff.mp
      decide +kernel
    have hlines : (Source.ofBytes [0x75, 0x6C, 0x0A, 0x09, 0x6C, 0x69]).lines =
        [.tag 0 1 "ul" .bare, .tag 1 2 "li" .bare] := by
      decide +kernel
    obtain ⟨_, hok⟩ := compile_wrapped [0x75, 0x6C, 0x0A, 0x09, 0x6C, 0x69]
    obtain ⟨q', hq', hiff⟩ := hok q hq
    refine ⟨q, q', hq, hq', hiff.mpr ?_⟩
    rw [hlines, forall_split_cons, forall_split_cons]
    refine ⟨?_, ?_, by simp⟩
    · rintro _ ⟨⟩
      decide
    · rintro _ ⟨⟩
      decide

end TabMarkup
