import TabMarkup.Proofs.Directive.Soundness
import TabMarkup.Proofs.Line.Completeness
import TabMarkup.Proofs.Line.Soundness

/-!
# Loops as rounds

A loop of the scanner makes rounds and then stops in a last try. Runs of bytes, lists with marks and
the lines of a source are such loops (`Repeats`), and every round of theirs takes bytes off the tape
(`Progresses`). So a loop makes no more rounds than there are bytes (`Rounds.takes`).
-/

namespace TabMarkup

/-- Getting from `s` to `t` took bytes, one or more: they were the first of what was ahead. -/
structure Scanner.Advances (s t : Scanner) : Prop where
  sound : t.cursor.Sound
  taken : ∃ w, w ≠ [] ∧ s.cursor.ahead = t.cursor.ahead.prepend w

namespace Scan

open Line

variable {α β : Type} {again : Scanner → α → Scanner → Prop}

/-- Rounds one after the other, each with what came of it. -/
inductive Rounds (again : Scanner → α → Scanner → Prop) : Scanner → List α → Scanner → Prop
  | nil (s : Scanner) : Rounds again s [] s
  | cons {s t u : Scanner} {a : α} {as : List α} (first : again s a t)
      (rest : Rounds again t as u) : Rounds again s (a :: as) u

/-- What `m` does are rounds, as many as can be made, and then a last try. -/
def Repeats (again : Scanner → α → Scanner → Prop) (m : Scan β) (last : List α → Scan β) : Prop :=
  ∀ s, ∃ as t, Rounds again s as t ∧ (∀ a u, ¬ again t a u) ∧ m s = last as t

/-- Every round takes bytes. -/
def Progresses (again : Scanner → α → Scanner → Prop) : Prop :=
  ∀ ⦃s : Scanner⦄ ⦃a : α⦄ ⦃t : Scanner⦄, s.cursor.Sound → again s a t → s.Advances t

/-- Rounds that take bytes are no more than the bytes that they take. -/
theorem Rounds.takes (hagain : Progresses again) {s t : Scanner} {as : List α}
    (h : Rounds again s as t) (hs : s.cursor.Sound) :
    t.cursor.Sound ∧ ∃ w, as.length ≤ w.length ∧ s.cursor.ahead = t.cursor.ahead.prepend w := by
  induction h with
  | nil s => exact ⟨hs, [], Nat.le_refl _, rfl⟩
  | cons first rest ih =>
    obtain ⟨ht, u, hu, hfirst⟩ := hagain hs first
    obtain ⟨hsound, w, hle, hrest⟩ := ih ht
    refine ⟨hsound, u ++ w, ?_, ?_⟩
    · have hpos := List.length_pos_iff.mpr hu
      rw [List.length_cons, List.length_append]
      omega
    · rw [hfirst, hrest, Tape.prepend_append]

/-- What comes after two parts that come to the same comes to the same. -/
theorem bind_congr_at {m m' : Scan α} {f : α → Scan β} {s t : Scanner} (h : m s = m' t) :
    (m >>= f) s = (m' >>= f) t := by
  change EStateM.bind m f s = EStateM.bind m' f t
  rw [EStateM.bind, EStateM.bind, h]

/-! ## Runs of bytes -/

/-- One more byte that the pattern admits. -/
def NextByte (keep : Bool) (p : Pattern) (s : Scanner) (_ : Unit) (t : Scanner) : Prop :=
  test keep p s = .ok true t

theorem progresses_nextByte (keep : Bool) (p : Pattern) : Progresses (NextByte keep p) := by
  intro s _ t hs hnext
  rcases test_ok hs.at_ahead hnext with ⟨_, b, rest, _, htape, ht, _⟩ | ⟨hfalse, _⟩
  · refine ⟨ht.sound, [b], by simp, ?_⟩
    rw [ht.ahead_eq, htape]
    rfl
  · cases hfalse

/-- The try that ends a run of so many bytes. -/
def endRun (keep : Bool) (p : Pattern) (taken : List Unit) : Scan Nat := do
  let _ ← test keep p
  return taken.length

/-- A run takes byte after byte, until one is not admitted, the source ends or a read fails. -/
theorem repeats_countWhile (keep : Bool) (p : Pattern) :
    Repeats (NextByte keep p) (countWhile keep p) (endRun keep p) := by
  intro s
  induction hn : s.unread using Nat.strongRecOn generalizing s with
  | ind n ih =>
    rw [countWhile_eq]
    cases htest : test keep p s with
    | error e t =>
      refine ⟨[], s, .nil s, fun _ u hnext => ?_, ?_⟩
      · cases htest.symm.trans hnext
      · rw [endRun, bind_of_error htest, bind_of_error htest]
    | ok taken t =>
      cases taken with
      | false =>
        refine ⟨[], s, .nil s, fun _ u hnext => ?_, ?_⟩
        · cases htest.symm.trans hnext
        · rw [endRun, bind_of_ok htest, bind_of_ok htest]
          rfl
      | true =>
        obtain ⟨as, u, hrounds, hlast, hrun⟩ := ih t.unread (hn ▸ test_unread_lt htest) t rfl
        refine ⟨() :: as, u, .cons htest hrounds, hlast, ?_⟩
        have hcount : endRun keep p (() :: as) = endRun keep p as >>= fun n => pure (n + 1) := by
          simp [endRun]
        rw [bind_of_ok htest, hcount]
        exact bind_congr_at hrun

/-! ## Lists -/

/-- One more item with a mark behind it. -/
def NextEntry (keep : Bool) (mark : Pattern) (item : Scan α) (s : Scanner) (a : α) (t : Scanner) :
    Prop :=
  ∃ u, item s = .ok a u ∧ test keep mark u = .ok true t

/-- The mark alone is a byte that is taken, whatever the item takes. -/
theorem progresses_nextEntry {keep : Bool} {mark : Pattern} {item : Scan α}
    {L : List UInt8 → List UInt8 → α → List UInt8 → Prop} (hitem : Takes item L) :
    Progresses (NextEntry keep mark item) := by
  rintro s a t hs ⟨u, hfirst, hmark⟩
  have hat := hs.at_ahead
  generalize htape : s.cursor.ahead = tape at hat
  obtain ⟨bytes, failure?⟩ := tape
  obtain ⟨w, rest, rfl, _, hu⟩ := hitem hat hfirst
  obtain ⟨ht, v, hv, hahead⟩ := progresses_nextByte keep mark (a := ()) hu.sound hmark
  refine ⟨ht, w ++ v, by simp [hv], ?_⟩
  rw [Tape.prepend_append, ← hahead, hu.ahead_eq, htape]
  rfl

/-- The item that ends a list, without a mark behind it. -/
def endList (keep : Bool) (mark : Pattern) (item : Scan α) (before : List α) : Scan (List α) := do
  let a ← item
  let _ ← test keep mark
  return before ++ [a]

/-- A list takes item after item, as long as there is a mark behind. -/
theorem repeats_separatedBy (keep : Bool) (mark : Pattern) (item : Scan α) (hitem : Forward item) :
    Repeats (NextEntry keep mark item) (separatedBy keep mark item hitem)
      (endList keep mark item) := by
  intro s
  induction hn : s.unread using Nat.strongRecOn generalizing s with
  | ind n ih =>
    rw [separatedBy_eq]
    cases hfirst : item s with
    | error e t =>
      refine ⟨[], s, .nil s, fun a u hnext => ?_, ?_⟩
      · obtain ⟨v, hv, _⟩ := hnext
        cases hfirst.symm.trans hv
      · rw [endList, bind_of_error hfirst, bind_of_error hfirst]
    | ok a t =>
      rw [bind_of_ok hfirst]
      by_cases hmark : ∃ u, test keep mark t = .ok true u
      · obtain ⟨u, hmark⟩ := hmark
        have hlt : u.unread < n :=
          hn ▸ Nat.lt_of_lt_of_le (test_unread_lt hmark) (hitem.ok_le hfirst)
        obtain ⟨as, v, hrounds, hlast, hrest⟩ := ih u.unread hlt u rfl
        refine ⟨a :: as, v, .cons ⟨t, hfirst, hmark⟩ hrounds, hlast, ?_⟩
        have hlist : endList keep mark item (a :: as) =
            endList keep mark item as >>= fun as => pure (a :: as) := by
          simp [endList]
        rw [bind_of_ok hmark, hlist]
        exact bind_congr_at hrest
      · refine ⟨[], s, .nil s, fun a' u' hnext => ?_, ?_⟩
        · obtain ⟨v, hv, hnext⟩ := hnext
          cases hfirst.symm.trans hv
          exact hmark ⟨u', hnext⟩
        · rw [endList, bind_of_ok hfirst]
          cases hlast : test keep mark t with
          | error e u => rw [bind_of_error hlast, bind_of_error hlast]
          | ok more u =>
            obtain rfl : more = false := by
              refine Bool.eq_false_iff.mpr fun hmore => hmark ⟨u, ?_⟩
              rw [hlast, hmore]
            rw [bind_of_ok hlast, bind_of_ok hlast]
            rfl

/-! ## Lines -/

/-- One more line. -/
def NextLine (s : Scanner) (line : Line) (t : Scanner) : Prop :=
  Line.read s = .ok (some line) t

theorem progresses_nextLine : Progresses NextLine := by
  intro s line t hs hread
  have hat := hs.at_ahead
  generalize htape : s.cursor.ahead = tape at hat
  obtain ⟨bytes, failure?⟩ := tape
  rcases read_ok hat rfl hread with ⟨_, w, rest, _, hbytes, _, hafter⟩ | ⟨_, hnone, _⟩
  · rcases hafter with ⟨rest', hrest, ht⟩ | ⟨hrest, ht⟩
    · refine ⟨ht.sound, w ++ [10], by simp, ?_⟩
      rw [ht.ahead_eq, Tape.prepend_append, ← hrest, htape, hbytes]
      rfl
    · -- A line that the end of the source ends is not empty, or else it would not have been read.
      cases hrest
      refine ⟨ht.sound, w, ?_, ?_⟩
      · rintro rfl
        subst hbytes
        obtain ⟨u, hover⟩ := read_over hat
        cases hover.symm.trans hread
      · rw [ht.ahead_eq, htape, hbytes]
        simp [Tape.prepend]
  · cases hnone

/-- A source is read line after line, until nothing but tabs is left or a line cannot be read. -/
theorem readAll_rounds (s : Scanner) :
    ∃ lines t, Rounds NextLine s lines t ∧
      ((∃ u, Line.read t = .ok none u ∧ readAll s = { lines, stop? := none }) ∨
        ∃ stop u, Line.read t = .error stop u ∧ readAll s = { lines, stop? := some stop }) := by
  induction hn : s.unread using Nat.strongRecOn generalizing s with
  | ind n ih =>
    cases hread : Line.read s with
    | error stop t =>
      exact ⟨[], s, .nil s, Or.inr ⟨stop, t, hread, readAll_of_error hread⟩⟩
    | ok found? t =>
      cases found? with
      | none => exact ⟨[], s, .nil s, Or.inl ⟨t, hread, readAll_of_none hread⟩⟩
      | some line =>
        obtain ⟨lines, u, hrounds, hend⟩ := ih t.unread (hn ▸ read_unread_lt hread) t rfl
        refine ⟨line :: lines, u, .cons hread hrounds, ?_⟩
        rw [readAll_of_some hread]
        rcases hend with ⟨v, hover, hrest⟩ | ⟨stop, v, hstop, hrest⟩
        · exact Or.inl ⟨v, hover, by rw [hrest]⟩
        · exact Or.inr ⟨stop, v, hstop, by rw [hrest]⟩

end Scan

end TabMarkup
