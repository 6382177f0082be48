import TabMarkup.Proofs.Line.Document
import TabMarkup.Proofs.Line.WholeLine

/-!
# Lines that a failure cuts off

A scanner whose tape ends in a failure is compared with scanners before tapes that begin with the
same bytes and go on. It reads what they read until it comes to the failure, which it then reports:
it never takes the failure for an answer about the next byte, nor for the end (`CutOff.readAll`).
-/

namespace TabMarkup

open Scan

/-- The line of the last of some bytes, if the byte before them is on line `line` and `owed` tells
whether it is a newline. -/
def lastLine (line : Nat) (owed : Bool) : List UInt8 → Nat
  | [] => line
  | b :: bytes => lastLine (if owed then line + 1 else line) (b == 10) bytes

/-- Every newline but the last byte has another line behind it. -/
theorem lastLine_eq (line : Nat) (owed : Bool) (bytes : List UInt8) :
    lastLine line owed bytes =
      line + (if owed = true ∧ bytes ≠ [] then 1 else 0) + bytes.dropLast.count 10 := by
  induction bytes generalizing line owed with
  | nil => simp [lastLine]
  | cons b bytes ih =>
    have hfirst : (if owed then line + 1 else line) =
        line + if owed = true ∧ b :: bytes ≠ [] then 1 else 0 := by
      cases owed <;> simp
    rw [lastLine, ih, hfirst]
    cases bytes with
    | nil => simp
    | cons c bytes =>
      rw [List.dropLast_cons_cons, List.count_cons]
      simp only [ne_eq, reduceCtorEq, not_false_eq_true, and_true]
      omega

/-- Two scanners in the same line with the same token. The tape of the first is cut off by a failure
where that of the second goes on, and `number` is the line of the last byte before the failure. -/
def CutOff (message : String) (number : Nat) (s t : Scanner) : Prop :=
  ∃ bytes, ∃ rest : Tape, ∃ line owed,
    s.cursor.At { bytes, failure? := some message } line owed ∧
    t.cursor.At (rest.prepend bytes) line owed ∧ s.scratch = t.scratch ∧
    lastLine line owed bytes = number

namespace CutOff

variable {message : String} {number : Nat} {s t : Scanner}

/-- The error that a failure is reported with. -/
def Reported (message : String) (number : Nat) (e : ParseError) : Prop :=
  e = ⟨.unreadable message, number⟩

/-- The same error, and not one of reading. -/
def SameText (e e' : ParseError) : Prop :=
  e = e' ∧ e.fault.OfText

/-- Trying a byte comes to the same, unless the byte is the one that cannot be read. -/
theorem test (h : CutOff message number s t) (keep : Bool) (p : Pattern) :
    AlikeUnless (Reported message number) SameText (fun a u b v => a = b ∧
      CutOff message number u v ∧ (a = false → u.cursor.isEof = v.cursor.isEof))
      (Scan.test keep p s) (Scan.test keep p t) := by
  obtain ⟨bytes, rest, line, owed, hs, ht, hscratch, hnumber⟩ := h
  cases bytes with
  | nil =>
    obtain ⟨u, hu⟩ := test_failure keep (p := p) hs
    rw [hu]
    exact .cut (by rw [Reported, ← hnumber, lastLine])
  | cons b bytes =>
    apply alike_test_cons keep hs ht
    · intro _ u v hu hv hkeep
      have hcut : CutOff message number u v := ⟨bytes, rest, _, _, hu, hv, hkeep hscratch, hnumber⟩
      exact ⟨rfl, hcut, fun hfalse => by cases hfalse⟩
    · intro _ u v hu hv hkeep heof
      have hcut : CutOff message number u v :=
        ⟨b :: bytes, rest, line, owed, hu, hv, hkeep hscratch, hnumber⟩
      exact ⟨rfl, hcut, fun _ => heof⟩

/-- Demanding a byte comes to the same, unless the byte is the one that cannot be read. -/
theorem demand (keep : Bool) (p : Pattern) :
    RespectsUnless (Reported message number) (CutOff message number) SameText
      (Scan.demand keep p) := by
  rintro s t ⟨bytes, rest, line, owed, hs, ht, hscratch, hnumber⟩
  cases bytes with
  | nil =>
    obtain ⟨u, hu⟩ := demand_failure keep (p := p) hs
    rw [hu]
    exact .cut (by rw [Reported, ← hnumber, lastLine])
  | cons b bytes =>
    apply alike_demand_cons keep hs ht
    · intro _ u v hu hv hkeep
      exact ⟨rfl, bytes, rest, _, _, hu, hv, hkeep hscratch, hnumber⟩
    · exact ⟨rfl, nofun⟩

/-- Whole lines are read alike up to the failure. -/
theorem simulation :
    ByteSimulation (Reported message number) (CutOff message number) SameText where
  test keep p _ _ hst := hst.test keep p
  demand := demand
  fail fault hfault := by
    rintro s t ⟨bytes, rest, line, owed, hs, ht, _⟩
    exact .error ⟨by rw [hs.line_eq, ht.line_eq], hfault.ofText⟩
  clearScratch := by
    rintro s t ⟨bytes, rest, line, owed, hs, ht, _, hnumber⟩
    exact .ok ⟨rfl, bytes, rest, line, owed, hs, ht, rfl, hnumber⟩
  takeScratch := by
    rintro s t ⟨bytes, rest, line, owed, hs, ht, hscratch, hnumber⟩
    exact .ok ⟨by rw [hscratch], bytes, rest, line, owed, hs, ht, rfl, hnumber⟩
  line := by
    rintro s t ⟨bytes, rest, line, owed, hs, ht, hscratch, hnumber⟩
    have hline : s.cursor.line = t.cursor.line := hs.line_eq.trans ht.line_eq.symm
    exact .ok ⟨hline, bytes, rest, line, owed, hs, ht, hscratch, hnumber⟩

/-- Reading lines up to a failure stops. It stops with the failure, or with the error that it stops
with on every tape that goes on instead. -/
theorem readAll (h : CutOff message number s t) :
    ∃ stop, (Line.readAll s).stop? = some stop ∧
      (Reported message number stop.error ∨
        stop.error.fault.OfText ∧ (Line.readAll t).stop?.map (·.error) = some stop.error) := by
  have hstops : (Line.readAll s).stop? ≠ none := by
    obtain ⟨bytes, rest, line, owed, hs, _⟩ := h
    intro hnone
    obtain ⟨hfailure, _⟩ := readAll_sound hs rfl hnone
    cases hfailure
  obtain ⟨stop, hstop⟩ := Option.ne_none_iff_exists'.mp hstops
  refine ⟨stop, hstop, ?_⟩
  rcases simulation.lineSimulation.readAll h with ⟨stop', hstop', hreported⟩ | ⟨_, hrel⟩
  · rw [hstop] at hstop'
    cases hstop'
    exact Or.inl hreported
  · rw [hstop] at hrel
    generalize (Line.readAll t).stop? = stop?' at hrel ⊢
    cases hrel with
    | some hsame =>
      obtain ⟨⟨herror, htext⟩, _⟩ := hsame
      exact Or.inr ⟨htext, by rw [herror, Option.map_some]⟩

end CutOff

end TabMarkup
