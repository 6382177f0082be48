import TabMarkup.Proofs.Compilation.FirstError
import TabMarkup.Proofs.Line.NewlineBehind

/-!
# The final newline

A newline at the very end of a source is optional: with it and without it a source compiles to the
same fragments or stops on the same line with the same error. Only a byte that is missing without it
is found to be a newline with it (`compile_append_newline`).
-/

namespace TabMarkup

open Line

/-- Where a reading goes with a newline behind the text, the outcome goes with it. -/
theorem Compilation.ofReading_newlineBehind {r r' : Reading} (h : r.NewlineBehind r') :
    (ofReading r').result = (ofReading r).result.mapError ParseError.atNewline := by
  have herror := h.error?
  unfold ofReading
  cases hstop : r.stop? with
  | some stop =>
    rw [hstop, Option.map_some] at herror
    obtain ⟨stop', hstop', heq⟩ := Option.map_eq_some_iff.mp herror
    rw [hstop']
    exact congrArg Except.error heq
  | none =>
    rw [hstop, Option.map_none, Option.map_eq_none_iff] at herror
    have houtline : Outline.ofLines r'.lines = Outline.ofLines r.lines := by
      rcases h.lines with hlines | hlines
      · rw [hlines]
      · rw [hlines, Outline.ofLines_insert_blank, List.append_nil]
    rw [herror, houtline]
    rfl

/-- With a newline behind it a source comes to what it comes to without: to the same fragments, or
to the same error on the same line, where the newline is the byte found if one was missing. -/
theorem compile_append_newline {source source' : Source} {bytes : List UInt8}
    (h : Delivers source bytes) (h' : Delivers source' (bytes ++ [10])) :
    (compile source').result = (compile source).result.mapError ParseError.atNewline := by
  change (Compilation.ofReading (readAll (Scanner.ofSource source'))).result =
    (Compilation.ofReading (readAll (Scanner.ofSource source))).result.mapError _
  rw [readAll_of_delivers h, readAll_of_delivers h']
  exact Compilation.ofReading_newlineBehind (Reading.newlineBehind_ofRows bytes 1)

/-- The second line is the tag `b` with an attribute `c=` that has no value. -/
theorem compile_append_newline_to_unfinished :
    Delivers (.ofBytes [0x70, 0x0A, 0x09, 0x62, 0x20, 0x63, 0x3D])
        [0x70, 0x0A, 0x09, 0x62, 0x20, 0x63, 0x3D] ∧
      Delivers [.data [0x70, 0x0A, 0x09, 0x62], .interrupted, .data [0x20, 0x63, 0x3D, 0x0A]]
        ([0x70, 0x0A, 0x09, 0x62, 0x20, 0x63, 0x3D] ++ [10]) ∧
      (compile (.ofBytes [0x70, 0x0A, 0x09, 0x62, 0x20, 0x63, 0x3D])).result =
        .error ⟨.unexpectedEnd (.byte 0x27), 2⟩ ∧
      (compile [.data [0x70, 0x0A, 0x09, 0x62], .interrupted,
          .data [0x20, 0x63, 0x3D, 0x0A]]).result =
        .error ⟨.unexpectedByte (.byte 0x27) 0x0A, 2⟩ := by
  have hsource : Delivers (.ofBytes [0x70, 0x0A, 0x09, 0x62, 0x20, 0x63, 0x3D])
      [0x70, 0x0A, 0x09, 0x62, 0x20, 0x63, 0x3D] := delivers_ofBytes _
  have hsource' : Delivers
      [.data [0x70, 0x0A, 0x09, 0x62], .interrupted, .data [0x20, 0x63, 0x3D, 0x0A]]
      ([0x70, 0x0A, 0x09, 0x62, 0x20, 0x63, 0x3D] ++ [10]) :=
    .data (by decide) (.interrupted (.data (by decide) .ended))
  have herror : (compile (.ofBytes [0x70, 0x0A, 0x09, 0x62, 0x20, 0x63, 0x3D])).result =
      .error ⟨.unexpectedEnd (.byte 0x27), 2⟩ := by
    apply Compilation.error?_eq_some_iff.mp
    decide +kernel
  have hnewline := compile_append_newline hsource hsource'
  rw [herror] at hnewline
  exact ⟨hsource, hsource', herror, hnewline⟩

end TabMarkup
