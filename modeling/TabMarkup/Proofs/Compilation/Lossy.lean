import TabMarkup.Proofs.Compilation.FirstError
import TabMarkup.Proofs.Line.Lossy

/-!
# Bytes compile as the text that they are read as

The bytes of a text are put together piece by piece and each piece is decoded on its own, so it
might matter where the pieces are cut when a source is not well-formed UTF-8. It does not: a source
compiles as the text does that all its bytes are read as at once (`compile_lossy`). Only the byte
that an error reports may be another one, and then it is no ASCII byte.
-/

namespace TabMarkup

open Scan

namespace Compilation

variable {source source' : Source}

/-- The lines of a source are those of the text that it is read as, and the reading of them stops
alike. -/
theorem readAll_lossy (h : source'.deliver none = (source.deliver none).lossy) :
    (Line.readAll (Scanner.ofSource source)).lines =
        (Line.readAll (Scanner.ofSource source')).lines ∧
      Option.Rel (SameReach ParseError.SameButFound)
        (Line.readAll (Scanner.ofSource source)).stop?
        (Line.readAll (Scanner.ofSource source')).stop? := by
  have hs := Cursor.at_ofSource source none
  have ht := Cursor.at_ofSource source' none
  rw [h] at ht
  have hbeside : SameLossy (Scanner.ofSource source) (Scanner.ofSource source') :=
    ⟨⟨_, _, _, _, hs, ht⟩, rfl, nofun⟩
  exact (SameLossy.simulation.readAll hbeside).resolve_left fun ⟨_, _, hcut⟩ => hcut

/-- The fragments of a source are those of the text that it is read as. -/
theorem result_ok_iff_lossy (h : source'.deliver none = (source.deliver none).lossy)
    (fragments : FragmentQueue) :
    (compile source).result = .ok fragments ↔ (compile source').result = .ok fragments := by
  obtain ⟨hlines, hstop⟩ := readAll_lossy h
  have hnone : (Line.readAll (Scanner.ofSource source)).stop? = none ↔
      (Line.readAll (Scanner.ofSource source')).stop? = none := by
    generalize (Line.readAll (Scanner.ofSource source)).stop? = stop?,
      (Line.readAll (Scanner.ofSource source')).stop? = stop?' at hstop
    cases hstop <;> simp
  constructor
  · intro hok
    obtain ⟨hend, rfl⟩ := ofReading_result_ok hok
    rw [hlines]
    exact ofReading_result_of_none (hnone.mp hend)
  · intro hok
    obtain ⟨hend, rfl⟩ := ofReading_result_ok hok
    rw [← hlines]
    exact ofReading_result_of_none (hnone.mpr hend)

/-- The error of a source is that of the text that it is read as, but for the byte found. -/
theorem error?_lossy (h : source'.deliver none = (source.deliver none).lossy) :
    Option.Rel ParseError.SameButFound (compile source).error? (compile source').error? := by
  obtain ⟨_, hstop⟩ := readAll_lossy h
  rw [error?_compile, error?_compile]
  generalize (Line.readAll (Scanner.ofSource source)).stop? = stop?,
    (Line.readAll (Scanner.ofSource source')).stop? = stop?' at hstop
  cases hstop with
  | none => exact .none
  | some hsame => exact .some hsame.1

end Compilation

open Compilation

/-- A source and one that delivers the text which its bytes are read as, with one U+FFFD for every
ill-formed part, compile alike. Either both compile, to the same fragments, or both stop with the
same error on the same line; it may report two bytes only where neither is ASCII. -/
theorem compile_lossy {source source' : Source}
    (h : source'.deliver none = (source.deliver none).lossy) :
    (∀ fragments, (compile source).result = .ok fragments ↔
        (compile source').result = .ok fragments) ∧
      ∀ e, (compile source).result = .error e →
        ∃ e', (compile source').result = .error e' ∧ e.SameButFound e' := by
  refine ⟨result_ok_iff_lossy h, fun e he => ?_⟩
  have hrel := error?_lossy h
  rw [error?_eq_some_iff.mpr he] at hrel
  cases herror : (compile source').error? with
  | none =>
    rw [herror] at hrel
    cases hrel
  | some e' =>
    rw [herror] at hrel
    cases hrel with
    | some hsame => exact ⟨e', error?_eq_some_iff.mp herror, hsame⟩

/-- The content of the first line breaks off inside a character, and the second line begins with a
byte that begins none. In the text both are U+FFFD, and the byte in the way is the first of that
one's. -/
theorem compile_lossy_of_broken_characters :
    Delivers [.data [0x70, 0x7C, 0xE2, 0x82], .interrupted, .data [0x0A, 0xFF]]
        [0x70, 0x7C, 0xE2, 0x82, 0x0A, 0xFF] ∧
      Utf8.lossy [0x70, 0x7C, 0xE2, 0x82, 0x0A, 0xFF] =
        [0x70, 0x7C, 0xEF, 0xBF, 0xBD, 0x0A, 0xEF, 0xBF, 0xBD] ∧
      (compile [.data [0x70, 0x7C, 0xE2, 0x82], .interrupted, .data [0x0A, 0xFF]]).result =
        .error ⟨.unexpectedByte .letter 0xFF, 2⟩ ∧
      ∃ e', (compile (.ofBytes [0x70, 0x7C, 0xEF, 0xBF, 0xBD, 0x0A, 0xEF, 0xBF, 0xBD])).result =
          .error e' ∧ ParseError.SameButFound ⟨.unexpectedByte .letter 0xFF, 2⟩ e' := by
  have hdelivers : Delivers [.data [0x70, 0x7C, 0xE2, 0x82], .interrupted, .data [0x0A, 0xFF]]
      [0x70, 0x7C, 0xE2, 0x82, 0x0A, 0xFF] :=
    .data (by decide) (.interrupted (.data (by decide) .ended))
  have hlossy : Utf8.lossy [0x70, 0x7C, 0xE2, 0x82, 0x0A, 0xFF] =
      [0x70, 0x7C, 0xEF, 0xBF, 0xBD, 0x0A, 0xEF, 0xBF, 0xBD] := by
    decide +kernel
  have herror :
      (compile [.data [0x70, 0x7C, 0xE2, 0x82], .interrupted, .data [0x0A, 0xFF]]).result =
        .error ⟨.unexpectedByte .letter 0xFF, 2⟩ := by
    apply error?_eq_some_iff.mp
    decide +kernel
  refine ⟨hdelivers, hlossy, herror, (compile_lossy ?_).2 _ herror⟩
  rw [hdelivers.deliver_eq, Source.deliver_ofBytes, Tape.lossy, hlossy]

end TabMarkup
