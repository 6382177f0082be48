import TabMarkup.Compilation
import TabMarkup.Proofs.Line.SameTape

/-!
# Compiling does not see how a source arrives

What comes of a source depends on nothing but the tape that it delivers. So the places where the
bytes are cut into pieces, be it inside a mark, between a newline and the byte after it or inside
a character, change neither the fragments, nor the error and its line, nor the events.
-/

namespace TabMarkup

/-- Sources that deliver the same tape are parsed alike, whatever is announced of their sizes. -/
theorem Compilation.parse_eq_of_deliver {source source' : Source} {size? size'? : Option Nat}
    (h : source.deliver size? = source'.deliver size'?) :
    parse source size? = parse source' size'? := by
  have hsource := Cursor.at_ofSource source size?
  have hsource' := Cursor.at_ofSource source' size'?
  rw [← h] at hsource'
  have hsame : SameTape (Scanner.ofSource source size?) (Scanner.ofSource source' size'?) :=
    ⟨_, _, _, hsource, hsource', rfl⟩
  unfold parse
  rw [hsame.readAll_eq]

/-- A source whose bytes arrive in pieces compiles exactly as all its bytes at once: to the same
fragments or the same error, with the same events. -/
theorem compile_eq_of_delivers {source : Source} {bytes : List UInt8} (h : Delivers source bytes) :
    compile source = compile (.ofBytes bytes) := by
  have htape : source.deliver none = (Source.ofBytes bytes).deliver none := by
    rw [h.deliver_eq, Source.deliver_ofBytes]
  unfold compile Compilation.run
  rw [Compilation.parse_eq_of_deliver htape]

/-- An embedding that is cut between its braces and after its dollar sign, with an interruption
in between and junk behind the end. -/
theorem compile_embedding_in_pieces :
    Delivers [.data [0x7B], .interrupted, .data [0x7B, 0x24], .data [0x78, 0x7D, 0x7D, 0x0A],
        .data [], .failure "late"] [0x7B, 0x7B, 0x24, 0x78, 0x7D, 0x7D, 0x0A] ∧
      compile [.data [0x7B], .interrupted, .data [0x7B, 0x24], .data [0x78, 0x7D, 0x7D, 0x0A],
          .data [], .failure "late"] =
        compile (.ofBytes [0x7B, 0x7B, 0x24, 0x78, 0x7D, 0x7D, 0x0A]) := by
  have h : Delivers [.data [0x7B], .interrupted, .data [0x7B, 0x24],
      .data [0x78, 0x7D, 0x7D, 0x0A], .data [], .failure "late"]
      [0x7B, 0x7B, 0x24, 0x78, 0x7D, 0x7D, 0x0A] :=
    .data (by decide) (.interrupted (.data (by decide)
      (.data (by decide) (.empty _))))
  exact ⟨h, compile_eq_of_delivers h⟩

end TabMarkup
