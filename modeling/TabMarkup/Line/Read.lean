import TabMarkup.Directive.Read
import TabMarkup.Line

/-!
# Reading lines

A line is tabs and nothing else, an embedding after tabs, or a tag after tabs: bare, with
literal text after a bar, or with attributes and embeddings, each after one space. The end of
the source ends a line as a newline does. Main statement: every line takes bytes
(`read_unread_lt`), so reading all lines of a source comes to an end.
-/

namespace TabMarkup.Line

open Scan Directive

/-- Takes the newline that comes next, or finds the end of the source. -/
def atEndOfLine : Scan Bool := do
  if ← skip (.char '\n') then return true
  isEof

/-- The line must end here. -/
def endOfLine : Scan Unit := do
  if ← atEndOfLine then return ()
  require (.char '\n')

/-- The quote that a value begins with, and that has to end it. -/
def quote : Scan UInt8 := do
  if ← accept (.byte 0x22) then return 0x22
  expect (.byte 0x27)
  return 0x27

/-- A name, an equals sign and a quoted value, as written. -/
def attr : Scan String := do
  clearScratch
  expectRun .attributeName
  expect (.char '=')
  let q ← quote
  let _ ← acceptWhile (.quoted q)
  expect (.byte q)
  takeScratch

/-- An embedding or an attribute. -/
def item : Scan Item := do
  if ← skip (.char '\x7b') then
    return .directive (← embedding)
  return .attr (← attr)

/-- The name of a tag. -/
def tagName : Scan String := do
  clearScratch
  expectRun .letter
  takeScratch

/-- The literal text after a bar, and the end of its line. -/
def literal : Scan TagBody := do
  clearScratch
  expectRun .content
  let text ← takeScratch
  endOfLine
  return .text text

theorem forward_atEndOfLine : Forward atEndOfLine := by
  refine (forward_skip _).bind fun b => ?_
  cases b
  · exact forward_isEof
  · exact forward_pure _

theorem forward_endOfLine : Forward endOfLine := by
  refine forward_atEndOfLine.bind fun b => ?_
  cases b
  · exact forward_require _
  · exact forward_pure _

theorem forward_quote : Forward quote := by
  refine (forward_accept _).bind fun b => ?_
  cases b
  · exact (forward_expect _).bind fun _ => forward_pure _
  · exact forward_pure _

theorem forward_attr : Forward attr :=
  forward_clearScratch.bind fun _ => (forward_expectRun _).bind fun _ =>
    (forward_expect _).bind fun _ => forward_quote.bind fun _ =>
    (forward_acceptWhile _).bind fun _ => (forward_expect _).bind fun _ => forward_takeScratch

theorem forward_item : Forward item := by
  refine (forward_skip _).bind fun b => ?_
  cases b
  · exact forward_attr.bind fun _ => forward_pure _
  · exact forward_embedding.bind fun _ => forward_pure _

theorem forward_literal : Forward literal :=
  forward_clearScratch.bind fun _ => (forward_expectRun _).bind fun _ =>
    forward_takeScratch.bind fun _ => forward_endOfLine.bind fun _ => forward_pure _

/-- The items of a tag, each after a space, and the end of their line. -/
def items : Scan TagBody := do
  require (.char ' ')
  let entries ← separatedBy false (.char ' ') item forward_item
  endOfLine
  return .items entries

theorem forward_items : Forward items :=
  (forward_require _).bind fun _ => (forward_separatedBy _ _ _ _).bind fun _ =>
    forward_endOfLine.bind fun _ => forward_pure _

/-- The rest of an embedding line after its first brace. -/
def embeddingLine : Scan Directive := do
  let d ← embedding
  endOfLine
  return d

theorem forward_embeddingLine : Forward embeddingLine :=
  forward_embedding.bind fun _ => forward_endOfLine.bind fun _ => forward_pure _

/-- Steps inside a line of which so much is known. -/
def reaching {α : Type} (reached : Reached) (m : Scan α) : EStateM Stop Scanner α :=
  fun s =>
    match m s with
    | .ok a t => .ok a t
    | .error error t => .error { error, reached } t

theorem reaching_eq_ok {α : Type} {reached : Reached} {m : Scan α} {s t : Scanner} {a : α} :
    reaching reached m s = .ok a t ↔ m s = .ok a t := by
  unfold reaching
  cases m s <;> simp

theorem forward_reaching {α : Type} {reached : Reached} {m : Scan α} (hm : Forward m) :
    Forward (reaching reached m) := by
  intro s
  have := hm s
  unfold reaching
  cases h : m s <;> rwa [h] at this

/-- What follows a tag name. The tag counts as open once it is known not to be bare. -/
def tagBody (tabs number : Nat) (name : String) : EStateM Stop Scanner TagBody := do
  if ← reaching (.indented tabs) atEndOfLine then return .bare
  let bar ← reaching (.indented tabs) (skip (.char '|'))
  reaching (.opened tabs number name) (if bar then literal else items)

theorem forward_tagBody (tabs number : Nat) (name : String) :
    Forward (tagBody tabs number name) := by
  refine (forward_reaching forward_atEndOfLine).bind fun b => ?_
  cases b
  · refine (forward_reaching (forward_skip _)).bind fun bar => forward_reaching ?_
    cases bar
    · exact forward_items
    · exact forward_literal
  · exact forward_pure _

/-- A line after its tabs, when it is not blank. -/
def content (tabs : Nat) : EStateM Stop Scanner Line := do
  if ← reaching (.indented tabs) (skip (.char '\x7b')) then
    return .directive tabs (← reaching (.indented tabs) embeddingLine)
  let name ← reaching (.indented tabs) tagName
  let number ← reaching (.indented tabs) Scan.line
  return .tag tabs number name (← tagBody tabs number name)

/-- The next line, or `none` where the source ends with no more than tabs. -/
def read : EStateM Stop Scanner (Option Line) := do
  let tabs ← reaching .margin (skipWhile (.char '\t'))
  if ← reaching .margin (skip (.char '\n')) then return some .blank
  if ← reaching .margin isEof then return none
  return some (← content tabs)

/-- A tag name takes at least one byte. -/
theorem tagName_unread_lt {s t : Scanner} {name : String} (h : tagName s = .ok name t) :
    t.unread < s.unread := by
  obtain ⟨_, u, hclear, h⟩ := bind_eq_ok.mp h
  obtain ⟨_, v, hrun, h⟩ := bind_eq_ok.mp h
  have := forward_clearScratch.ok_le hclear
  have := expectRun_unread_lt hrun
  have := forward_takeScratch.ok_le h
  omega

/-- The content of a line takes at least one byte. -/
theorem content_unread_lt {tabs : Nat} {s t : Scanner} {line : Line}
    (h : content tabs s = .ok line t) : t.unread < s.unread := by
  obtain ⟨brace, u, hskip, h⟩ := bind_eq_ok.mp h
  have hskip := reaching_eq_ok.mp hskip
  cases brace
  · have := (forward_skip _).ok_le hskip
    obtain ⟨name, v, hname, h⟩ := bind_eq_ok.mp h
    obtain ⟨number, w, hline, h⟩ := bind_eq_ok.mp h
    obtain ⟨body, x, hbody, h⟩ := bind_eq_ok.mp h
    have := tagName_unread_lt (reaching_eq_ok.mp hname)
    have := forward_line.ok_le (reaching_eq_ok.mp hline)
    have := (forward_tagBody tabs number name).ok_le hbody
    cases h
    omega
  · have := test_unread_lt hskip
    obtain ⟨d, v, hembedding, h⟩ := bind_eq_ok.mp h
    have := forward_embeddingLine.ok_le (reaching_eq_ok.mp hembedding)
    cases h
    omega

/-- Every line takes at least one byte. -/
theorem read_unread_lt {s t : Scanner} {line : Line} (h : read s = .ok (some line) t) :
    t.unread < s.unread := by
  obtain ⟨tabs, u, htabs, h⟩ := bind_eq_ok.mp h
  have := (forward_skipWhile _).ok_le (reaching_eq_ok.mp htabs)
  obtain ⟨newline, v, hskip, h⟩ := bind_eq_ok.mp h
  have hskip := reaching_eq_ok.mp hskip
  cases newline
  · have := (forward_skip _).ok_le hskip
    obtain ⟨eof, w, heof, h⟩ := bind_eq_ok.mp h
    have := forward_isEof.ok_le (reaching_eq_ok.mp heof)
    cases eof
    · obtain ⟨content, x, hcontent, h⟩ := bind_eq_ok.mp h
      have := content_unread_lt hcontent
      cases h
      omega
    · cases h
  · have := test_unread_lt hskip
    cases h
    omega

/-- All lines that could be read, and what stopped the reading before the end. -/
structure Reading where
  lines : List Line
  stop? : Option Stop
  deriving Repr, DecidableEq

/-- Reads lines up to the end of the source or the first error. -/
def readAll (s : Scanner) : Reading :=
  match h : read s with
  | .error stop _ => { lines := [], stop? := some stop }
  | .ok none _ => { lines := [], stop? := none }
  | .ok (some line) t =>
    have := read_unread_lt h
    let rest := readAll t
    { rest with lines := line :: rest.lines }
termination_by s.unread

theorem readAll_of_error {s t : Scanner} {stop : Stop} (h : read s = .error stop t) :
    readAll s = { lines := [], stop? := some stop } := by
  rw [readAll]
  split <;> simp_all

theorem readAll_of_none {s t : Scanner} (h : read s = .ok none t) :
    readAll s = { lines := [], stop? := none } := by
  rw [readAll]
  split <;> simp_all

/-- After a line that was read come the lines that are read from where it ends. -/
theorem readAll_of_some {s t : Scanner} {line : Line} (h : read s = .ok (some line) t) :
    readAll s = { lines := line :: (readAll t).lines, stop? := (readAll t).stop? } := by
  rw [readAll]
  split <;> simp_all

end TabMarkup.Line
