import TabMarkup.Proofs.Line.WholeLine

/-!
# Lines depend on the tape alone

Scanners before the same tape, in the same line, read the same lines and stop with the same
error, however the bytes of the tape are kept or still to be read (`SameTape.readAll_eq`).
-/

namespace TabMarkup

open Scan

/-! ## Scanners before the same tape -/

/-- Two scanners before the same tape, in the same line, with the same token. -/
def SameTape (s t : Scanner) : Prop :=
  ∃ tape line owed, s.cursor.At tape line owed ∧ t.cursor.At tape line owed ∧
    s.scratch = t.scratch

namespace SameTape

/-- Trying a byte comes to the same, and where none is taken, so does asking for the end. -/
theorem test {s t : Scanner} (h : SameTape s t) (keep : Bool) (p : Pattern) :
    Alike Eq (fun a u b v => a = b ∧ SameTape u v ∧
      (a = false → u.cursor.isEof = v.cursor.isEof)) (test keep p s) (Scan.test keep p t) := by
  obtain ⟨⟨bytes, failure?⟩, line, owed, hs, ht, hscratch⟩ := h
  cases bytes with
  | cons b bytes =>
    apply alike_test_cons keep hs ht
    · intro _ u v hu hv hkeep
      exact ⟨rfl, ⟨_, _, _, hu, hv, hkeep hscratch⟩, fun hfalse => by cases hfalse⟩
    · intro _ u v hu hv hkeep heof
      exact ⟨rfl, ⟨_, _, _, hu, hv, hkeep hscratch⟩, fun _ => heof⟩
  | nil =>
    cases failure? with
    | none =>
      obtain ⟨u, hsu, hu, hscratchu, hueof⟩ := test_over keep (p := p) hs
      obtain ⟨v, htv, hv, hscratchv, hveof⟩ := test_over keep (p := p) ht
      rw [hsu, htv]
      refine .ok ⟨rfl, ⟨_, _, _, hu, hv, ?_⟩, fun _ => hueof.trans hveof.symm⟩
      rw [hscratchu, hscratchv, hscratch]
    | some message =>
      obtain ⟨u, hsu⟩ := test_failure keep (p := p) hs
      obtain ⟨v, htv⟩ := test_failure keep (p := p) ht
      rw [hsu, htv]
      exact .error rfl

/-- Demanding a byte comes to the same, errors included. -/
theorem respects_demand (keep : Bool) (p : Pattern) :
    Respects SameTape Eq (demand keep p) := by
  rintro s t ⟨⟨bytes, failure?⟩, line, owed, hs, ht, hscratch⟩
  cases bytes with
  | cons b bytes =>
    apply alike_demand_cons keep hs ht
    · intro _ u v hu hv hkeep
      exact ⟨rfl, _, _, _, hu, hv, hkeep hscratch⟩
    · rfl
  | nil =>
    cases failure? with
    | none =>
      obtain ⟨u, hsu⟩ := demand_over keep (p := p) hs
      obtain ⟨v, htv⟩ := demand_over keep (p := p) ht
      rw [hsu, htv]
      exact .error rfl
    | some message =>
      obtain ⟨u, hsu⟩ := demand_failure keep (p := p) hs
      obtain ⟨v, htv⟩ := demand_failure keep (p := p) ht
      rw [hsu, htv]
      exact .error rfl

/-- Being before the same tape is a simulation, also where lines end. -/
theorem simulation : ByteSimulation (fun _ => False) SameTape Eq where
  test keep p _ _ hst := hst.test keep p
  demand := respects_demand
  fail fault _ := by
    rintro s t ⟨tape, line, owed, hs, ht, hscratch⟩
    exact .error (by rw [hs.line_eq, ht.line_eq])
  clearScratch := by
    rintro s t ⟨tape, line, owed, hs, ht, _⟩
    exact .ok ⟨rfl, tape, line, owed, hs, ht, rfl⟩
  takeScratch := by
    rintro s t ⟨tape, line, owed, hs, ht, hscratch⟩
    exact .ok ⟨by rw [hscratch], tape, line, owed, hs, ht, rfl⟩
  line := by
    rintro s t ⟨tape, line, owed, hs, ht, hscratch⟩
    exact .ok ⟨hs.line_eq.trans ht.line_eq.symm, tape, line, owed, hs, ht, hscratch⟩

/-- Scanners before the same tape read the same lines and stop with the same error. -/
theorem readAll_eq {s t : Scanner} (hst : SameTape s t) : Line.readAll s = Line.readAll t := by
  rcases simulation.lineSimulation.readAll hst with ⟨_, _, hcut⟩ | ⟨hlines, hstop⟩
  · exact hcut.elim
  · have hstop : (Line.readAll s).stop? = (Line.readAll t).stop? := by
      generalize (Line.readAll s).stop? = stop?, (Line.readAll t).stop? = stop?' at hstop
      cases hstop with
      | none => rfl
      | @some stop stop' h =>
        obtain ⟨herror, hreached⟩ := h
        obtain ⟨error, reached⟩ := stop
        obtain ⟨error', reached'⟩ := stop'
        simp_all
    generalize Line.readAll s = reading, Line.readAll t = reading' at hlines hstop
    obtain ⟨lines, stop?⟩ := reading
    obtain ⟨lines', stop?'⟩ := reading'
    simp_all

end SameTape

end TabMarkup
