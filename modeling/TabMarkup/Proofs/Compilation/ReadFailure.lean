import TabMarkup.Proofs.Compilation.FirstError
import TabMarkup.Proofs.Line.CutOff

/-!
# Read failures

A source whose reading fails never compiles. What stops it is the failure itself, on the line that
was reached, unless the bytes before the failure are wrong in a way that no bytes behind them can
mend; then every source that begins with them stops with the same error
(`compile_error_of_failsAfter`).
-/

namespace TabMarkup

namespace Compilation

/-- The error of a source that is cut off by a failure is that failure, or the error that all
sources have which begin with the same bytes. -/
theorem error?_of_failsAfter {source : Source} {bytes : List UInt8} {message : String}
    (h : FailsAfter source bytes message) :
    ∃ e, (compile source).error? = some e ∧ ∀ source' : Source,
      bytes <+: (source'.deliver none).bytes →
      CutOff.Reported message (1 + bytes.dropLast.count 10) e ∨
        e.fault.OfText ∧ (compile source').error? = some e := by
  have hs := Cursor.at_ofSource source none
  rw [h.deliver_eq] at hs
  have hline : lastLine 1 false bytes = 1 + bytes.dropLast.count 10 := by
    rw [lastLine_eq]
    simp
  have hcutOff (source' : Source) (hbegins : bytes <+: (source'.deliver none).bytes) :
      CutOff message (1 + bytes.dropLast.count 10) (Scanner.ofSource source)
        (Scanner.ofSource source') := by
    obtain ⟨rest, hrest⟩ := hbegins
    have ht := Cursor.at_ofSource source' none
    have hprepend : source'.deliver none =
        Tape.prepend bytes { bytes := rest, failure? := (source'.deliver none).failure? } := by
      rw [Tape.prepend, hrest]
    rw [hprepend] at ht
    exact ⟨bytes, _, 1, false, hs, ht, rfl, hline⟩
  -- Only the source that is compared changes; the scanner that comes to the failure is the same.
  have hself : bytes <+: (source.deliver none).bytes := by
    simp [h.deliver_eq]
  obtain ⟨stop, hstop, _⟩ := (hcutOff source hself).readAll
  refine ⟨stop.error, by rw [error?_compile, hstop, Option.map_some], fun source' hbegins => ?_⟩
  obtain ⟨stop', hstop', hcases⟩ := (hcutOff source' hbegins).readAll
  rw [hstop] at hstop'
  cases hstop'
  rwa [error?_compile]

end Compilation

open Compilation

/-- A source that delivers some bytes and then fails does not compile. Either its error is one of
text, and every source that begins with these bytes has the same error, or it is the failure, on
the line of the last byte before it. So it is the failure if any source that begins with the same
bytes compiles. -/
theorem compile_error_of_failsAfter {source : Source} {bytes : List UInt8} {message : String}
    (h : FailsAfter source bytes message) :
    ∃ e, (compile source).result = .error e ∧
      ((e.fault.OfText ∧ ∀ source' : Source, bytes <+: (source'.deliver none).bytes →
          (compile source').result = .error e) ∨
        e = ⟨.unreadable message, 1 + bytes.dropLast.count 10⟩) ∧
      ∀ (source' : Source) (q : FragmentQueue), bytes <+: (source'.deliver none).bytes →
        (compile source').result = .ok q →
        e = ⟨.unreadable message, 1 + bytes.dropLast.count 10⟩ := by
  obtain ⟨e, he, hall⟩ := error?_of_failsAfter h
  refine ⟨e, error?_eq_some_iff.mp he, ?_, ?_⟩
  · by_cases hreported : CutOff.Reported message (1 + bytes.dropLast.count 10) e
    · exact Or.inr hreported
    · left
      have hothers (source' : Source) (hbegins : bytes <+: (source'.deliver none).bytes) :
          e.fault.OfText ∧ (compile source').error? = some e :=
        (hall source' hbegins).resolve_left hreported
      have hself : bytes <+: ((Source.ofBytes bytes).deliver none).bytes := by
        simp [Source.deliver_ofBytes]
      refine ⟨(hothers _ hself).1, fun source' hbegins => ?_⟩
      exact error?_eq_some_iff.mp (hothers source' hbegins).2
  · intro source' q hbegins hok
    rcases hall source' hbegins with hreported | ⟨_, herror⟩
    · exact hreported
    · rw [error?_eq_none_iff.mpr ⟨q, hok⟩] at herror
      cases herror

/-- The failure strikes between the two braces that open an embedding, on the second line. With
`{$x}}` behind it the source compiles. -/
theorem compile_error_of_failure_in_braces :
    FailsAfter [.data [0x70, 0x0A], .interrupted, .data [0x7B], .failure "disk on fire",
        .data [0x70]] [0x70, 0x0A, 0x7B] "disk on fire" ∧
      (compile [.data [0x70, 0x0A], .interrupted, .data [0x7B], .failure "disk on fire",
        .data [0x70]]).result = .error ⟨.unreadable "disk on fire", 2⟩ := by
  have hfails : FailsAfter
      [.data [0x70, 0x0A], .interrupted, .data [0x7B], .failure "disk on fire", .data [0x70]]
      [0x70, 0x0A, 0x7B] "disk on fire" :=
    .data (by decide) (.interrupted (.data (by decide) (.failure _ _)))
  obtain ⟨q, hwhole⟩ : ∃ q, (compile (.ofBytes
      [0x70, 0x0A, 0x7B, 0x7B, 0x24, 0x78, 0x7D, 0x7D])).result = .ok q := by
    apply error?_eq_none_iff.mp
    decide +kernel
  obtain ⟨e, he, _, hfailure⟩ := compile_error_of_failsAfter hfails
  have hbegins : [0x70, 0x0A, 0x7B] <+: ((Source.ofBytes
      [0x70, 0x0A, 0x7B, 0x7B, 0x24, 0x78, 0x7D, 0x7D]).deliver none).bytes := by
    rw [Source.deliver_ofBytes]
    decide
  have hline := hfailure _ _ hbegins hwhole
  exact ⟨hfails, by rw [he, hline]; rfl⟩

end TabMarkup
