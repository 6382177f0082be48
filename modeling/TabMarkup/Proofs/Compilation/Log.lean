import TabMarkup.Proofs.Compilation.FirstError
import TabMarkup.Proofs.Compilation.Grammar
import TabMarkup.Proofs.Compilation.Nested
import TabMarkup.Proofs.Line.Stop
import TabMarkup.Proofs.Log

/-!
# The log of a source

What is noted while a source is compiled can be told from its lines: each line notes the tags that
it closes and then its own tag, if it begins one (`LineLog`). Where a line cannot be read, the lines
before it have noted what they note if the source ends there (`compile_log`).
-/

namespace TabMarkup

open Grammar Scan

/-! ## What a line notes -/

/-- The number of tabs that a line begins with. -/
def leadingTabs (w : List UInt8) : Nat :=
  (w.takeWhile (· == 9)).length

/-- The letters behind the tabs of a line. -/
def leadingName (w : List UInt8) : String :=
  text ((w.dropWhile (· == 9)).takeWhile Pattern.letter.admits)

/-- What line `number` notes of its own: the tag that it begins, at the depth of its tabs, right
behind a warning if the name is not that of an element. -/
def ownEvents (number : Nat) (w : List UInt8) : List Event :=
  if beginsTag w then
    Element.warnings number (leadingName w) ++ [.opened (leadingName w) (leadingTabs w)]
  else []

/-- What line `number` notes: that tags are closed below its tabs, unless it is tabs only, and then
its own events. -/
def LineLog (number : Nat) (w : List UInt8) (log : List Event) : Prop :=
  ∃ closes, log = closes ++ ownEvents number w ∧
    (∀ event ∈ closes, event.ClosesBelow (leadingTabs w)) ∧
    (w.dropWhile (· == 9) = [] → closes = [])

/-- What lines note, each for itself, if the first of them is line `number`. -/
inductive Logs : Nat → List (List UInt8) → List (List Event) → Prop where
  | nil (number : Nat) : Logs number [] []
  | cons {number : Nat} {w : List UInt8} {log : List Event} {ws : List (List UInt8)}
      {logs : List (List Event)} (first : LineLog number w log) (rest : Logs (number + 1) ws logs) :
      Logs number (w :: ws) (log :: logs)

variable {number count : Nat} {b : UInt8} {v w x rest bytes : List UInt8}

/-- The tabs in front of something else are the leading ones. -/
theorem leadingTabs_eq (count : Nat) (hv : Stops (.char '\t') v) :
    leadingTabs (tabs count ++ v) = count := by
  have hnone : v.takeWhile (· == 9) = [] := by
    cases v with
    | nil => rfl
    | cons b v => exact List.takeWhile_cons_of_neg (Bool.eq_false_iff.mp (hv b rfl))
  rw [leadingTabs, tabs, List.takeWhile_append_of_pos (by simp), hnone]
  simp

theorem dropWhile_tabs (count : Nat) (hv : Stops (.char '\t') v) :
    (tabs count ++ v).dropWhile (· == 9) = v := by
  rw [dropWhile_tabs_append]
  cases v with
  | nil => rfl
  | cons b v => exact List.dropWhile_cons_of_neg (Bool.eq_false_iff.mp (hv b rfl))

/-- A line that begins a tag notes its name and its tabs. -/
theorem ownEvents_tag (number count : Nat) (hx : IsRun .letter x) (hrest : Stops .letter rest) :
    ownEvents number (tabs count ++ (x ++ rest)) =
      Element.warnings number (text x) ++ [.opened (text x) count] := by
  have htab : Stops (.char '\t') (x ++ rest) := stops_char_of_isRun hx rfl
  have hbegins : beginsTag (tabs count ++ (x ++ rest)) = true := by
    rw [beginsTag, dropWhile_tabs count htab]
    obtain ⟨b, x, rfl⟩ := List.exists_cons_of_ne_nil hx.1
    simpa using hx.2 b (by simp)
  have hnone : rest.takeWhile Pattern.letter.admits = [] := by
    cases rest with
    | nil => rfl
    | cons b rest => exact List.takeWhile_cons_of_neg (Bool.eq_false_iff.mp (hrest b rfl))
  have hname : leadingName (tabs count ++ (x ++ rest)) = text x := by
    rw [leadingName, dropWhile_tabs count htab, List.takeWhile_append_of_pos hx.2, hnone,
      List.append_nil]
  rw [ownEvents, if_pos hbegins, hname, leadingTabs_eq count htab]

/-- A line of the grammar notes of its own what it says. -/
theorem Grammar.LineText.ownEvents_eq {line : Line} (hw : LineText number w line) :
    ownEvents number w = line.ownEvents := by
  have hbegins := hw.beginsTag_eq
  cases hw with
  | blank count => rw [ownEvents, hbegins]; rfl
  | directive hw => rw [ownEvents, hbegins]; rfl
  | tag hx hw =>
    have hstops : Stops .letter _ := stops_of_bodyText hw lineEnd_nil
    rw [List.append_nil] at hstops
    rw [List.append_assoc, ownEvents_tag number _ hx hstops]
    rfl

/-- A line of the grammar adds to an outline what it notes. -/
theorem lineLog_add (o : Outline) {line : Line} (hw : LineText number w line) :
    ∃ log, (o.add line).events.toList = o.events.toList ++ log ∧ LineLog number w log := by
  cases htabs : line.tabs? with
  | none =>
    obtain rfl := Line.tabs?_eq_none.mp htabs
    refine ⟨[], by simp [Outline.add], [], ?_, by simp, fun _ => rfl⟩
    rw [hw.ownEvents_eq]
    rfl
  | some count =>
    obtain ⟨closes, hevents, hcloses⟩ := o.events_add htabs
    obtain ⟨b, v, rfl, hb⟩ := hw.exists_content htabs
    have htab : Stops (.char '\t') (b :: v) := stops_cons (beq_false_of_ne hb)
    refine ⟨_, hevents, closes, by rw [hw.ownEvents_eq], ?_, fun hblank => ?_⟩
    · rwa [leadingTabs_eq count htab]
    · rw [dropWhile_tabs count htab] at hblank
      cases hblank

/-- A document adds to an outline what its lines note. -/
theorem logs_foldl {ws : List (List UInt8)} {lines : List Line} (hws : Document number ws lines)
    (o : Outline) :
    ∃ logs, (lines.foldl Outline.add o).events.toList = o.events.toList ++ logs.flatten ∧
      Logs number ws logs := by
  induction hws generalizing o with
  | nil number => exact ⟨[], by simp, .nil number⟩
  | @cons number w line ws lines hw hws ih =>
    obtain ⟨log, hevents, hlog⟩ := lineLog_add o hw
    obtain ⟨logs, hrest, hlogs⟩ := ih (o.add line)
    refine ⟨log :: logs, ?_, .cons hlog hlogs⟩
    rw [List.foldl_cons, hrest, hevents, List.flatten_cons, List.append_assoc]

theorem logs_ofLines {ws : List (List UInt8)} {lines : List Line} (hws : Document 1 ws lines) :
    ∃ logs, (Outline.ofLines lines).events.toList = logs.flatten ∧ Logs 1 ws logs := by
  obtain ⟨logs, hevents, hlogs⟩ := logs_foldl hws {}
  exact ⟨logs, by simpa [Outline.ofLines] using hevents, hlogs⟩

/-- A line that could not be read to its end has noted the first of what it notes. -/
theorem lineLog_abandon (o : Outline) {reached : Line.Reached}
    (h : StoppedAt number bytes reached) :
    ∃ own w ws log, (o.abandon reached).events.toList = o.events.toList ++ own ∧
      bytes.splitOn 10 = w :: ws ∧ LineLog number w log ∧ own <+: log := by
  cases h with
  | margin =>
    obtain ⟨w, ws, hws, _⟩ := exists_splitOn_append (w := []) (by simp) bytes
    refine ⟨[], w, ws, ownEvents number w, by simp [Outline.abandon], by simpa using hws, ?_,
      List.nil_prefix⟩
    exact ⟨[], rfl, by simp, fun _ => rfl⟩
  | @indented count b rest htab hnewline =>
    have hnotMem : (10 : UInt8) ∉ tabs count ++ [b] := by
      simp [tabs, List.mem_replicate, hnewline.symm]
    obtain ⟨v, ws, hws, _⟩ := exists_splitOn_append hnotMem rest
    have hstops : Stops (.char '\t') ([b] ++ v) := stops_cons (beq_false_of_ne htab)
    rw [List.append_assoc, List.append_assoc] at hws
    obtain ⟨closes, hevents, hcloses⟩ := o.events_indentTo count
    refine ⟨closes, _, ws, _, hevents, hws, ⟨closes, rfl, ?_, fun hblank => ?_⟩,
      List.prefix_append closes _⟩
    · rwa [leadingTabs_eq count hstops]
    · rw [dropWhile_tabs count hstops] at hblank
      cases hblank
  | @opened count x rest hx hrest =>
    have hnotMem : (10 : UInt8) ∉ tabs count ++ x := by
      simp [tabs, List.mem_replicate, hx.newline_notMem rfl]
    obtain ⟨v, ws, hws, hv⟩ := exists_splitOn_append hnotMem rest
    have htab : Stops (.char '\t') (x ++ v) := stops_char_of_isRun hx rfl
    have hletter : Stops .letter v := hrest.of_prefix hv
    rw [List.append_assoc, List.append_assoc] at hws
    obtain ⟨closes, hevents, hcloses⟩ := o.events_indentTo count
    have hdepth : (o.indentTo count).depth = count := rfl
    refine ⟨closes ++ ownEvents number (tabs count ++ (x ++ v)), _, ws, _, ?_, hws,
      ⟨closes, rfl, ?_, fun hblank => ?_⟩, List.prefix_rfl⟩
    · rw [Outline.abandon, Outline.events_openTag, hevents, hdepth,
        ownEvents_tag number count hx hletter, List.append_assoc]
    · rwa [leadingTabs_eq count htab]
    · rw [dropWhile_tabs count htab] at hblank
      exact absurd (List.append_eq_nil_iff.mp hblank).1 hx.1

/-! ## What stops the reading of a source -/

/-- A document with one more line. -/
theorem Grammar.Document.concat {ws : List (List UInt8)} {lines : List Line} {line : Line}
    (hws : Document number ws lines) (hw : LineText (number + ws.length) w line) :
    Document number (ws ++ [w]) (lines ++ [line]) := by
  induction hws with
  | nil number => exact .cons hw (.nil _)
  | @cons number u first ws lines hu hws ih =>
    refine .cons hu (ih ?_)
    rwa [List.length_cons, ← Nat.add_assoc, Nat.add_right_comm] at hw

/-- A document without its last line. -/
theorem Grammar.Document.of_concat {ws : List (List UInt8)} {lines : List Line}
    (h : Document number (ws ++ [w]) lines) :
    ∃ before line, lines = before ++ [line] ∧ Document number ws before ∧
      LineText (number + ws.length) w line := by
  induction ws generalizing number lines with
  | nil =>
    cases h with
    | @cons _ _ line _ lines hw hrest =>
      cases hrest
      exact ⟨[], line, rfl, .nil _, hw⟩
  | cons u ws ih =>
    cases h with
    | @cons _ _ first _ lines hu hrest =>
      obtain ⟨before, line, rfl, hbefore, hw⟩ := ih hrest
      refine ⟨first :: before, line, rfl, .cons hu hbefore, ?_⟩
      rwa [List.length_cons, ← Nat.add_assoc, Nat.add_right_comm]

theorem Grammar.Document.newline_notMem {ws : List (List UInt8)} {lines : List Line}
    (h : Document number ws lines) : ∀ w ∈ ws, (10 : UInt8) ∉ w := by
  intro w hw
  obtain ⟨_, _, hline⟩ := h.lineText hw
  exact hline.newline_notMem

/-- Where the reading stops, whole lines have been read. It stops in the line behind them, or a
failure comes before the first byte of that one and is put down to the line before. -/
theorem readAll_stop {s : Scanner} {failure? : Option String} {line : Nat} {owed : Bool}
    (hs : s.cursor.At { bytes, failure? } line owed)
    (hnumber : (if owed then line + 1 else line) = number) {stop : Line.Stop}
    (hstop : (Line.readAll s).stop? = some stop) :
    ∃ ws tail, bytes = ws.flatMap (· ++ [10]) ++ tail ∧
      Document number ws (Line.readAll s).lines ∧
      ((stop.error.line = number + ws.length ∧
          StoppedAt (number + ws.length) tail stop.reached) ∨
        (tail = [] ∧ stop.reached = .margin ∧ stop.error.line + 1 = number + ws.length ∧
          (ws = [] → owed = true))) := by
  induction hn : s.unread using Nat.strongRecOn generalizing s bytes line number owed with
  | ind n ih =>
    cases hread : Line.read s with
    | error stop' t =>
      rw [Line.readAll_of_error hread] at hstop ⊢
      cases hstop
      refine ⟨[], bytes, rfl, .nil number, ?_⟩
      rcases read_error hs hnumber hread with ⟨hbytes, hline, hreached⟩ | hinside
      · cases owed with
        | true => exact Or.inr ⟨hbytes, hreached, by simpa [hline] using hnumber, fun _ => rfl⟩
        | false =>
          refine Or.inl ⟨hline.trans hnumber, ?_⟩
          rw [hreached]
          exact .margin bytes
      · exact Or.inl hinside
    | ok found? t =>
      rcases read_ok hs hnumber hread with ⟨entry, w, rest, rfl, rfl, hw, hafter⟩ |
        ⟨count, rfl, _, _⟩
      · rw [Line.readAll_of_some hread] at hstop ⊢
        have hlt : t.unread < n := hn ▸ Line.read_unread_lt hread
        rcases hafter with ⟨⟨rest', _⟩, htape, ht⟩ | ⟨htape, ht⟩
        · cases htape
          obtain ⟨ws, tail, hbytes, hws, hwhere⟩ := ih t.unread hlt ht rfl hstop rfl
          refine ⟨w :: ws, tail, ?_, .cons hw hws, ?_⟩
          · rw [List.flatMap_cons, hbytes]
            simp
          · rw [List.length_cons, Nat.add_comm ws.length, ← Nat.add_assoc]
            rcases hwhere with hinside | ⟨htail, hreached, hline, _⟩
            · exact Or.inl hinside
            · exact Or.inr ⟨htail, hreached, hline, nofun⟩
        · obtain ⟨u, hover⟩ := read_over (htape ▸ ht)
          rw [Line.readAll_of_none hover] at hstop
          cases hstop
      · rw [Line.readAll_of_none hread] at hstop
        cases hstop

/-! ## The log of a compilation -/

namespace Compilation

/-- What comes of a source is what its lines say, the tabs behind its last newline included. -/
theorem compile_of_document {source : Source} {lines : List Line}
    (hdeliver : source.deliver none = { bytes })
    (hlines : Document 1 (bytes.splitOn 10) lines) :
    let o := (Outline.ofLines lines).finish
    (compile source).result = .ok o.fragments ∧
      (compile source).events = o.events.toList ++ [.parseFinished o.fragments.size] := by
  have hs : (Scanner.ofSource source).cursor.At { bytes } 1 false :=
    hdeliver ▸ Cursor.at_ofSource source none
  have hstop : (Line.readAll (Scanner.ofSource source)).stop? = none :=
    readAll_complete hs rfl fun w hw => hlines.lineText hw
  obtain ⟨_, trailing, htrailing, hread⟩ := readAll_sound hs rfl hstop
  have hsame : Outline.ofLines lines = Outline.ofLines source.lines := by
    rw [hlines.unique hread, Outline.ofLines_append]
    rcases htrailing with rfl | rfl <;> rfl
  intro o
  have hparse : parse source = { result := .ok o.fragments, events := o.events.toList } := by
    simp only [parse, ofReading, hstop, o, hsame]
    rfl
  refine ⟨?_, ?_⟩
  · rw [compile, run, hparse]
  · rw [compile, run, hparse]
    rfl

/-- Lines of the grammar note what each of them notes, and in the end what is still open is
closed. -/
theorem log_of_document {ws : List (List UInt8)} {lines : List Line} (hws : Document 1 ws lines) :
    ∃ logs closes, Logs 1 ws logs ∧ (Outline.ofLines lines).events.toList = logs.flatten ∧
      (Outline.ofLines lines).finish.events.toList = logs.flatten ++ closes ∧
      ∀ event ∈ closes, event.ClosesBelow 0 := by
  obtain ⟨logs, hevents, hlogs⟩ := logs_ofLines hws
  obtain ⟨closes, hfinish, hcloses⟩ := (Outline.ofLines lines).events_indentTo 0
  exact ⟨logs, closes, hlogs, hevents, by rw [← hevents]; exact hfinish, hcloses⟩

/-- Whole lines of the grammar compile, and note what each of them notes. -/
theorem compile_whole_lines {ws : List (List UInt8)} {lines : List Line}
    (hws : Document 1 ws lines) :
    let before := compile (.ofBytes (ws.flatMap (· ++ [10])))
    ∃ logs closes q, Logs 1 ws logs ∧ (Outline.ofLines lines).events.toList = logs.flatten ∧
      before.result = .ok q ∧ (∀ event ∈ closes, event.ClosesBelow 0) ∧
      before.events = logs.flatten ++ closes ++ [.parseFinished q.size] := by
  have hsplit : (ws.flatMap (· ++ [10])).splitOn 10 = ws ++ [[]] := by
    simpa using splitOn_flatMap_append hws.newline_notMem []
  have hdocument : Document 1 ((ws.flatMap (· ++ [10])).splitOn 10) (lines ++ [.blank]) := by
    rw [hsplit]
    exact hws.concat (LineText.blank 0)
  have hsame : Outline.ofLines (lines ++ [.blank]) = Outline.ofLines lines := by
    rw [Outline.ofLines_append]
    rfl
  obtain ⟨hresult, hevents⟩ := compile_of_document (Source.deliver_ofBytes _) hdocument
  obtain ⟨logs, closes, hlogs, hnoted, hfinish, hcloses⟩ := log_of_document hws
  rw [hsame] at hresult hevents
  exact ⟨logs, closes, _, hlogs, hnoted, hresult, hcloses, by rw [hevents, hfinish]⟩

/-- Where a source fails, the reading of it stopped. -/
theorem exists_stop_of_error {source : Source} {e : ParseError}
    (he : (compile source).result = .error e) :
    ∃ stop, (Line.readAll (Scanner.ofSource source)).stop? = some stop ∧ stop.error = e := by
  have herror := error?_compile source
  rw [error?_eq_some_iff.mpr he] at herror
  obtain ⟨stop, hstop, herror⟩ := Option.map_eq_some_iff.mp herror.symm
  exact ⟨stop, hstop, herror⟩

theorem events_of_stop {source : Source} {stop : Line.Stop}
    (hstop : (Line.readAll (Scanner.ofSource source)).stop? = some stop) :
    (compile source).events =
      ((Outline.ofLines source.lines).abandon stop.reached).events.toList ++
        [.parseFailed stop.error] := by
  have hparse : parse source = { result := .error stop.error
                                 events := ((Outline.ofLines source.lines).abandon
                                   stop.reached).events.toList } := by
    simp only [parse, ofReading, hstop]
    rfl
  rw [compile, run, hparse]
  rfl

/-- What a source that fails has noted is what the lines before the one that the error names note,
and the first of what this one notes. -/
theorem exists_stopped_line {source : Source} {stop : Line.Stop}
    (hstop : (Line.readAll (Scanner.ofSource source)).stop? = some stop) :
    ∃ us w rest lines own log,
      (source.deliver none).bytes.splitOn 10 = us ++ w :: rest ∧
      stop.error.line = us.length + 1 ∧ Document 1 us lines ∧
      ((Outline.ofLines source.lines).abandon stop.reached).events.toList =
        (Outline.ofLines lines).events.toList ++ own ∧
      LineLog stop.error.line w log ∧ own <+: log := by
  have hs : (Scanner.ofSource source).cursor.At (source.deliver none) 1 false :=
    Cursor.at_ofSource source none
  have hnumber : (if false then 1 + 1 else 1) = 1 := rfl
  obtain ⟨us, tail, hbytes, hus, hwhere⟩ := readAll_stop hs hnumber hstop
  have hsplit : (source.deliver none).bytes.splitOn 10 = us ++ tail.splitOn 10 := by
    rw [hbytes, splitOn_flatMap_append hus.newline_notMem]
  rcases hwhere with ⟨hline, hreached⟩ | ⟨rfl, hreached, hline, hfirst⟩
  · obtain ⟨own, w, rest, log, hown, hw, hlog, hprefix⟩ :=
      lineLog_abandon (Outline.ofLines source.lines) hreached
    rw [hw] at hsplit
    rw [← hline] at hlog
    exact ⟨us, w, rest, source.lines, own, log, hsplit, hline.trans (Nat.add_comm _ _), hus, hown,
      hlog, hprefix⟩
  · -- The failure comes behind a newline, so the line that it is put down to has been read.
    rcases List.eq_nil_or_concat us with rfl | ⟨before, w, rfl⟩
    · cases hfirst rfl
    rw [List.concat_eq_append] at hus hsplit hline
    obtain ⟨lines, line, hlines, hbefore, hw⟩ := hus.of_concat
    have hlength : stop.error.line = before.length + 1 := by
      rw [List.length_append, List.length_singleton] at hline
      omega
    obtain ⟨log, hevents, hlog⟩ := lineLog_add (Outline.ofLines lines) hw
    refine ⟨before, w, [[]], lines, log, log, ?_, hlength, hbefore, ?_, ?_, List.prefix_rfl⟩
    · rw [hsplit, List.append_assoc]
      rfl
    · have hread : Outline.ofLines source.lines = (Outline.ofLines lines).add line := by
        rw [Source.lines, hlines, Outline.ofLines_append]
        rfl
      rw [hreached, Outline.abandon, hread, hevents]
    · rwa [hlength, Nat.add_comm]

end Compilation

open Compilation

/-- The log of a source that compiles tells the same of tags as its fragments, in the same order. It
is made of what each line notes, and of the tags that are closed in the end, all from levels below
the margin. If no line skips a level, every tag is closed at the depth behind the one that it was
opened at. A source that fails has noted what the lines before the failing one note, as far as that
goes what this one notes, and the error; if it ends before the failing line, it has noted the same
of the lines before, and then what is closed in the end. -/
theorem compile_log (source : Source) :
    (∀ q, (compile source).result = .ok q →
      (compile source).events.filterMap Event.mark? = q.toList.filterMap Fragment.mark? ∧
      (∃ bytes logs closes, source.deliver none = { bytes } ∧ Logs 1 (bytes.splitOn 10) logs ∧
        (∀ event ∈ closes, event.ClosesBelow 0) ∧
        (compile source).events = logs.flatten ++ closes ++ [.parseFinished q.size]) ∧
      (WellIndented 0 source.lines →
        (compile source).events.foldlM Event.openAfter [] = some [])) ∧
    ∀ e, (compile source).result = .error e →
      let ws := (source.deliver none).bytes.splitOn 10
      let before := compile (.ofBytes ((ws.take (e.line - 1)).flatMap (· ++ [10])))
      ∃ logs own closes q, Logs 1 (ws.take (e.line - 1)) logs ∧
        (compile source).events = logs.flatten ++ own ++ [.parseFailed e] ∧
        (∃ w log, ws[e.line - 1]? = some w ∧ LineLog e.line w log ∧ own <+: log) ∧
        before.result = .ok q ∧ (∀ event ∈ closes, event.ClosesBelow 0) ∧
        before.events = logs.flatten ++ closes ++ [.parseFinished q.size] := by
  constructor
  · intro q hq
    obtain ⟨_, bytes, trailing, hdeliver, htrailing, hlines⟩ := exists_document_lines hq
    obtain ⟨hresult, hevents⟩ := compile_of_document hdeliver hlines
    obtain rfl : q = _ := Except.ok.inj (hq.symm.trans hresult)
    have hsame : Outline.ofLines (source.lines ++ trailing) = Outline.ofLines source.lines := by
      rw [Outline.ofLines_append]
      rcases htrailing with rfl | rfl <;> rfl
    refine ⟨?_, ?_, fun hindent => ?_⟩
    · have hmirrors : (Outline.ofLines (source.lines ++ trailing)).finish.Mirrors :=
        (Outline.mirrors_ofLines (source.lines ++ trailing)).indentTo 0
      rw [hevents, List.filterMap_append, hmirrors]
      simp [Event.mark?]
    · obtain ⟨logs, closes, hlogs, _, hfinish, hcloses⟩ := log_of_document hlines
      exact ⟨bytes, logs, closes, hdeliver, hlogs, hcloses, by rw [hevents, hfinish]⟩
    · have hpaired : (Outline.ofLines source.lines).finish.events.toList.foldlM Event.openAfter [] =
          some [] := (Outline.paired_empty.foldl_add hindent).finish
      rw [hevents, List.foldlM_append, hsame, hpaired]
      rfl
  · intro e he ws before
    obtain ⟨stop, hstop, rfl⟩ := exists_stop_of_error he
    obtain ⟨us, w, rest, lines, own, log, hws, hline, hus, hown, hlog, hprefix⟩ :=
      exists_stopped_line hstop
    obtain ⟨logs, closes, q, hlogs, hnoted, hresult, hcloses, hbefore⟩ := compile_whole_lines hus
    have htake : ws.take (stop.error.line - 1) = us := by
      simp only [ws, hws, hline, Nat.add_sub_cancel, List.take_left]
    have hget : ws[stop.error.line - 1]? = some w := by
      simp [ws, hws, hline]
    simp only [before, htake]
    refine ⟨logs, own, closes, q, hlogs, ?_, ⟨w, log, hget, hlog, hprefix⟩, hresult, hcloses,
      hbefore⟩
    rw [events_of_stop hstop, hown, hnoted]

/-- The lines are `ul`, with one tab `LI`, and with one tab `z`, which is not an element. With `{{`
for the last one, which is no embedding, the error is on line 3. -/
theorem compile_log_of_list :
    (∃ q, (compile (.ofBytes [0x75, 0x6C, 0x0A, 0x09, 0x4C, 0x49, 0x0A, 0x09, 0x7A])).result =
        .ok q ∧
      [.opened "ul", .opened "LI", .closed "LI", .opened "z", .closed "z", .closed "ul"] =
        q.toList.filterMap Fragment.mark? ∧
      (compile (.ofBytes [0x75, 0x6C, 0x0A, 0x09, 0x4C, 0x49, 0x0A, 0x09, 0x7A])).events.foldlM
        Event.openAfter [] = some []) ∧
    (compile (.ofBytes [0x75, 0x6C, 0x0A, 0x09, 0x7A, 0x0A, 0x7B, 0x7B])).result =
      .error ⟨.malformedEmbedding, 3⟩ ∧
    ∃ logs own, Logs 1 [[0x75, 0x6C], [0x09, 0x7A]] logs ∧
      [.opened "ul" 0, .unknownTag "z" 2, .opened "z" 1, .closed "z" 2, .closed "ul" 1,
          .parseFailed ⟨.malformedEmbedding, 3⟩] =
        logs.flatten ++ own ++ [.parseFailed ⟨.malformedEmbedding, 3⟩] := by
  constructor
  · have hq : (compile (.ofBytes [0x75, 0x6C, 0x0A, 0x09, 0x4C, 0x49, 0x0A, 0x09, 0x7A])).result =
        .ok { fragments := #[.openTag "ul", .openTag "LI", .closeTag "LI", .openTag "z",
          .closeTag "z", .closeTag "ul"] } := by
      decide +kernel
    have hevents : (compile (.ofBytes [0x75, 0x6C, 0x0A, 0x09, 0x4C, 0x49, 0x0A, 0x09,
        0x7A])).events.filterMap Event.mark? =
          [.opened "ul", .opened "LI", .closed "LI", .opened "z", .closed "z", .closed "ul"] := by
      decide +kernel
    have hlines : (Source.ofBytes [0x75, 0x6C, 0x0A, 0x09, 0x4C, 0x49, 0x0A, 0x09, 0x7A]).lines =
        [.tag 0 1 "ul" .bare, .tag 1 2 "LI" .bare, .tag 1 3 "z" .bare] := by
      decide +kernel
    have hindent : WellIndented 0 (Source.ofBytes [0x75, 0x6C, 0x0A, 0x09, 0x4C, 0x49, 0x0A, 0x09,
        0x7A]).lines := by
      rw [hlines]
      simp [WellIndented]
    obtain ⟨hmarks, _, hpaired⟩ := (compile_log _).1 _ hq
    exact ⟨_, hq, hevents.symm.trans hmarks, hpaired hindent⟩
  · have he : (compile (.ofBytes [0x75, 0x6C, 0x0A, 0x09, 0x7A, 0x0A, 0x7B, 0x7B])).result =
        .error ⟨.malformedEmbedding, 3⟩ := by
      decide +kernel
    have hevents : (compile (.ofBytes [0x75, 0x6C, 0x0A, 0x09, 0x7A, 0x0A, 0x7B, 0x7B])).events =
        [.opened "ul" 0, .unknownTag "z" 2, .opened "z" 1, .closed "z" 2, .closed "ul" 1,
          .parseFailed ⟨.malformedEmbedding, 3⟩] := by
      decide +kernel
    have hlines : ((Source.ofBytes [0x75, 0x6C, 0x0A, 0x09, 0x7A, 0x0A, 0x7B, 0x7B]).deliver
        none).bytes.splitOn 10 = [[0x75, 0x6C], [0x09, 0x7A], [0x7B, 0x7B]] := by
      rw [Source.deliver_ofBytes]
      decide
    obtain ⟨logs, own, _, _, hlogs, hnoted, _⟩ := (compile_log _).2 _ he
    rw [hlines] at hlogs
    exact ⟨he, logs, own, hlogs, hevents.symm.trans hnoted⟩

end TabMarkup
