import TabMarkup.Cursor
import TabMarkup.ParseError
import TabMarkup.Text.Utf8

/-!
# Scanning

The steps from which the line grammar is built: try the next byte against a pattern, require it
to match, and collect what matched. A byte that is tried in vain is given back, and that is all
the looking ahead there is. Main statements: a step that takes a byte leaves fewer to come
(`test_unread_lt`), and no step leaves more than it found (`Forward`), so that loops end.
-/

namespace TabMarkup

/-- A cursor, and the bytes of the token that is being collected. -/
structure Scanner where
  cursor : Cursor
  scratch : Array UInt8 := #[]

/-- Steps over a source that may stop with an error. The scanner is kept when they do. -/
abbrev Scan := EStateM ParseError Scanner

namespace Scanner

/-- A scanner at the start of a source. -/
def ofSource (source : Source) (size? : Option Nat := none) : Scanner :=
  { cursor := Cursor.ofSource source size? }

/-- The number of bytes that are still to come. -/
def unread (s : Scanner) : Nat :=
  s.cursor.unread

end Scanner

namespace Scan

/-! ## Single steps -/

/-- Stops with a fault on the current line. -/
def fail {α : Type} (fault : Fault) : Scan α :=
  fun s => .error ⟨fault, s.cursor.line⟩ s

/-- The number of the current line. -/
def line : Scan Nat :=
  fun s => .ok s.cursor.line s

/-- Whether the end of the source has been met. -/
def isEof : Scan Bool :=
  fun s => .ok s.cursor.isEof s

/-- Takes the next byte. A failed read becomes an error on the current line. -/
def next : Scan (Option UInt8) :=
  fun s =>
    match s.cursor.next with
    | (.ok b?, cursor) => .ok b? { s with cursor }
    | (.error reason, cursor) => .error ⟨.unreadable reason, cursor.line⟩ { s with cursor }

/-- Gives back the byte just taken. -/
def pushBack : Scan Unit :=
  fun s => .ok () { s with cursor := s.cursor.pushBack }

/-- Appends a byte to the token, if it is to be kept. -/
def store (keep : Bool) (b : UInt8) : Scan Unit :=
  fun s => .ok () (if keep then { s with scratch := s.scratch.push b } else s)

/-- Takes the next byte if the pattern admits it, and tells whether it did. -/
def test (keep : Bool) (p : Pattern) : Scan Bool := do
  match ← next with
  | none => return false
  | some b =>
    if p.admits b then
      store keep b
      return true
    else
      pushBack
      return false

/-- Takes and keeps the next byte if the pattern admits it. -/
def accept (p : Pattern) : Scan Bool :=
  test true p

/-- Takes and drops the next byte if the pattern admits it. -/
def skip (p : Pattern) : Scan Bool :=
  test false p

/-- Takes the next byte, which the pattern must admit. A byte that it does not admit stays
taken, so a newline is reported on the line that it ends. -/
def demand (keep : Bool) (p : Pattern) : Scan Unit := do
  match ← next with
  | none => fail (.unexpectedEnd p)
  | some b => if p.admits b then store keep b else fail (.unexpectedByte p b)

/-- Takes and keeps the next byte, which the pattern must admit. -/
def expect (p : Pattern) : Scan Unit :=
  demand true p

/-- Takes and drops the next byte, which the pattern must admit. -/
def require (p : Pattern) : Scan Unit :=
  demand false p

/-- Empties the token. -/
def clearScratch : Scan Unit :=
  fun s => .ok () { s with scratch := #[] }

/-- Takes the token as text and empties it. -/
def takeScratch : Scan String :=
  fun s => .ok (String.ofList (Utf8.decodeLossy s.scratch.toList)) { s with scratch := #[] }

/-! ## Going forward -/

/-- The scanner that a run of steps ends with, whether it stops with an error or not. -/
def final {ε α : Type} : EStateM.Result ε Scanner α → Scanner
  | .ok _ s => s
  | .error _ s => s

/-- Steps that never leave more bytes to come than they found. -/
def Forward {ε α : Type} (m : EStateM ε Scanner α) : Prop :=
  ∀ s, (final (m s)).unread ≤ s.unread

/-- Where steps that go forward succeed, they leave no more bytes than they found. -/
theorem Forward.ok_le {ε α : Type} {m : EStateM ε Scanner α} (hm : Forward m) {s t : Scanner}
    {a : α} (h : m s = .ok a t) : t.unread ≤ s.unread := by
  have := hm s
  rwa [h] at this

/-- A sequence succeeds where both of its parts do, the second from where the first ends. -/
theorem bind_eq_ok {ε α β : Type} {m : EStateM ε Scanner α} {f : α → EStateM ε Scanner β}
    {s u : Scanner} {b : β} :
    (m >>= f) s = .ok b u ↔ ∃ a t, m s = .ok a t ∧ f a t = .ok b u := by
  change EStateM.bind m f s = _ ↔ _
  unfold EStateM.bind
  cases m s with
  | ok a t =>
    refine ⟨fun h => ⟨a, t, rfl, h⟩, fun h => ?_⟩
    obtain ⟨_, _, hm, h⟩ := h
    cases hm
    exact h
  | error e t =>
    refine ⟨fun h => (by cases h), fun h => ?_⟩
    obtain ⟨_, _, hm, _⟩ := h
    cases hm

/-- Doing nothing goes forward. -/
theorem forward_pure {ε α : Type} (a : α) : Forward (pure a : EStateM ε Scanner α) :=
  fun _ => Nat.le_refl _

/-- One part after another goes forward where both do. -/
theorem Forward.bind {ε α β : Type} {m : EStateM ε Scanner α} {f : α → EStateM ε Scanner β}
    (hm : Forward m) (hf : ∀ a, Forward (f a)) : Forward (m >>= f) := by
  intro s
  have hs := hm s
  change (final (EStateM.bind m f s)).unread ≤ s.unread
  unfold EStateM.bind
  cases h : m s with
  | ok a t =>
    rw [h] at hs
    exact Nat.le_trans (hf a t) hs
  | error e t =>
    rw [h] at hs
    exact hs

theorem forward_fail {α : Type} (fault : Fault) : Forward (fail fault : Scan α) :=
  fun _ => Nat.le_refl _

theorem forward_line : Forward line :=
  fun _ => Nat.le_refl _

theorem forward_isEof : Forward isEof :=
  fun _ => Nat.le_refl _

theorem forward_store (keep : Bool) (b : UInt8) : Forward (store keep b) := by
  intro s
  cases keep <;> exact Nat.le_refl _

theorem forward_clearScratch : Forward clearScratch :=
  fun _ => Nat.le_refl _

theorem forward_takeScratch : Forward takeScratch :=
  fun _ => Nat.le_refl _

/-- A byte that is taken is one byte fewer to come. -/
theorem next_some_unread {s t : Scanner} {b : UInt8} (h : next s = .ok (some b) t) :
    t.unread + 1 = s.unread := by
  unfold next at h
  split at h
  · rename_i b? cursor hnext
    cases h
    exact Cursor.next_some_unread hnext
  · cases h

/-- Taking a byte goes forward, whatever comes of it. -/
theorem forward_next : Forward next := by
  intro s
  unfold next
  split <;> rename_i hnext <;> exact Cursor.next_unread_le hnext

/-- A byte that is tried and admitted is one byte fewer to come. -/
theorem test_unread_lt {keep : Bool} {p : Pattern} {s t : Scanner}
    (h : test keep p s = .ok true t) : t.unread < s.unread := by
  obtain ⟨b?, u, hnext, h⟩ := bind_eq_ok.mp h
  cases b? with
  | none => cases h
  | some b =>
    have hunread := next_some_unread hnext
    dsimp only at h
    split at h
    · obtain ⟨_, v, hstore, h⟩ := bind_eq_ok.mp h
      have := (forward_store keep b).ok_le hstore
      cases h
      omega
    · cases h

/-- Trying a byte goes forward: what is not admitted is given back and no more. -/
theorem forward_test (keep : Bool) (p : Pattern) : Forward (test keep p) := by
  intro s
  change (final (EStateM.bind next _ s)).unread ≤ _
  unfold EStateM.bind
  cases hnext : next s with
  | error e t =>
    have := forward_next s
    rwa [hnext] at this
  | ok b? t =>
    cases b? with
    | none =>
      have := forward_next s
      rwa [hnext] at this
    | some b =>
      have hunread := next_some_unread hnext
      dsimp only
      split
      · have hle : (final (store keep b t)).unread ≤ t.unread := forward_store keep b t
        cases keep <;> exact Nat.le_trans hle (by omega)
      · have hle := t.cursor.pushBack_unread_le
        change t.cursor.pushBack.unread ≤ s.unread
        change t.cursor.unread + 1 = s.unread at hunread
        omega

theorem forward_accept (p : Pattern) : Forward (accept p) :=
  forward_test true p

theorem forward_skip (p : Pattern) : Forward (skip p) :=
  forward_test false p

/-- Demanding a byte goes forward, whether or not it is admitted. -/
theorem forward_demand (keep : Bool) (p : Pattern) : Forward (demand keep p) := by
  refine forward_next.bind fun b? => ?_
  cases b? with
  | none => exact forward_fail _
  | some b =>
    dsimp only
    split
    · exact forward_store keep b
    · exact forward_fail _

/-- A byte that is demanded and admitted is one byte fewer to come. -/
theorem demand_unread_lt {keep : Bool} {p : Pattern} {s t : Scanner} {a : Unit}
    (h : demand keep p s = .ok a t) : t.unread < s.unread := by
  obtain ⟨b?, u, hnext, h⟩ := bind_eq_ok.mp h
  cases b? with
  | none => cases h
  | some b =>
    have hunread := next_some_unread hnext
    dsimp only at h
    split at h
    · have := (forward_store keep b).ok_le h
      omega
    · cases h

theorem forward_expect (p : Pattern) : Forward (expect p) :=
  forward_demand true p

theorem forward_require (p : Pattern) : Forward (require p) :=
  forward_demand false p

/-! ## Runs of bytes -/

/-- Takes bytes as long as the pattern admits them, and tells how many. -/
def countWhile (keep : Bool) (p : Pattern) : Scan Nat :=
  fun s =>
    match h : test keep p s with
    | .error e t => .error e t
    | .ok false t => .ok 0 t
    | .ok true t =>
      have := test_unread_lt h
      match countWhile keep p t with
      | .error e u => .error e u
      | .ok n u => .ok (n + 1) u
termination_by s => s.unread

/-- Takes and keeps bytes as long as the pattern admits them, and tells how many. -/
def acceptWhile (p : Pattern) : Scan Nat :=
  countWhile true p

/-- Takes and drops bytes as long as the pattern admits them, and tells how many. -/
def skipWhile (p : Pattern) : Scan Nat :=
  countWhile false p

/-- Takes and keeps one byte or more that the pattern admits. -/
def expectRun (p : Pattern) : Scan Unit := do
  expect p
  let _ ← acceptWhile p

/-- A run of bytes goes forward. -/
theorem forward_countWhile (keep : Bool) (p : Pattern) : Forward (countWhile keep p) := by
  intro s
  fun_induction countWhile keep p s with
  | case1 s e t h => have := forward_test keep p s; rwa [h] at this
  | case2 s t h => have := forward_test keep p s; rwa [h] at this
  | case3 s t h hlt e u hcount ih =>
    rw [hcount] at ih
    exact Nat.le_trans ih (Nat.le_of_lt hlt)
  | case4 s t h hlt n u hcount ih =>
    rw [hcount] at ih
    exact Nat.le_trans ih (Nat.le_of_lt hlt)

/-- A run of one byte or more leaves fewer to come. -/
theorem expectRun_unread_lt {p : Pattern} {s t : Scanner} {a : Unit}
    (h : expectRun p s = .ok a t) : t.unread < s.unread := by
  obtain ⟨_, u, hexpect, h⟩ := bind_eq_ok.mp h
  obtain ⟨_, v, hwhile, h⟩ := bind_eq_ok.mp h
  have := demand_unread_lt hexpect
  have := (forward_countWhile true p).ok_le hwhile
  cases h
  omega

theorem forward_acceptWhile (p : Pattern) : Forward (acceptWhile p) :=
  forward_countWhile true p

theorem forward_skipWhile (p : Pattern) : Forward (skipWhile p) :=
  forward_countWhile false p

theorem forward_expectRun (p : Pattern) : Forward (expectRun p) :=
  (forward_expect p).bind fun _ => (forward_acceptWhile p).bind fun _ => forward_pure _

/-! ## Lists -/

/-- One `item` or more with a `mark` between each two. The marks are kept or dropped. -/
def separatedBy {α : Type} (keep : Bool) (mark : Pattern) (item : Scan α) (hitem : Forward item) :
    Scan (List α) :=
  fun s =>
    match hs : item s with
    | .error e t => .error e t
    | .ok a t =>
      match ht : test keep mark t with
      | .error e u => .error e u
      | .ok false u => .ok [a] u
      | .ok true u =>
        have := Nat.lt_of_lt_of_le (test_unread_lt ht) (hitem.ok_le hs)
        match separatedBy keep mark item hitem u with
        | .error e v => .error e v
        | .ok as v => .ok (a :: as) v
termination_by s => s.unread

/-- A list goes forward where its items do. -/
theorem forward_separatedBy {α : Type} (keep : Bool) (mark : Pattern) (item : Scan α)
    (hitem : Forward item) : Forward (separatedBy keep mark item hitem) := by
  intro s
  fun_induction separatedBy keep mark item hitem s with
  | case1 s e t hs => have := hitem s; rwa [hs] at this
  | case2 s a t hs e u ht =>
    have := forward_test keep mark t
    rw [ht] at this
    exact Nat.le_trans this (hitem.ok_le hs)
  | case3 s a t hs u ht =>
    have := forward_test keep mark t
    rw [ht] at this
    exact Nat.le_trans this (hitem.ok_le hs)
  | case4 s a t hs u ht hlt e v hrest ih =>
    rw [hrest] at ih
    exact Nat.le_trans ih (Nat.le_of_lt hlt)
  | case5 s a t hs u ht hlt as v hrest ih =>
    rw [hrest] at ih
    exact Nat.le_trans ih (Nat.le_of_lt hlt)

end Scan

end TabMarkup
