import TabMarkup.Proofs.Line.RowByRow
import TabMarkup.Proofs.Outline

/-!
# Blank lines

A line of nothing but tabs is passed over before its tabs are counted for anything. Put in between
two lines, or in front of the first one, it moves what stands behind it one line down: the fragments
are the same, and so are the error and the events but for the lines of which they speak
(`compile_insert_blank`).
-/

namespace TabMarkup

open Grammar Scan

open Line

/-- The number of a line once another line is put in behind the first `n` lines. -/
def lowered (n line : Nat) : Nat :=
  if n < line then line + 1 else line

/-- A blank line between lines leaves no trace in what they come to. -/
theorem Compilation.ofReading_append_blank (r r' : Reading) :
    ofReading (r.append (Reading.blank.append r')) = ofReading (r.append r') := by
  cases h : r.stop? with
  | some stop => rw [Reading.append_of_some h, Reading.append_of_some h]
  | none =>
    have hblank : Outline.ofLines (r.lines ++ ([.blank] ++ r'.lines)) =
        Outline.ofLines (r.lines ++ r'.lines) := Outline.ofLines_insert_blank r.lines r'.lines
    have hfront : Reading.blank.append r' = { r' with lines := [.blank] ++ r'.lines } :=
      Reading.append_of_none rfl r'
    rw [Reading.append_of_none h, Reading.append_of_none h, hfront]
    unfold ofReading
    rw [hblank]

/-- The rows in front of a line that is put in keep their numbers. -/
theorem renumber_lowered_before {a : List UInt8} (ha : EndsLine a) :
    (Reading.ofRows 1 (rows a)).renumber (lowered (a.count 10)) = Reading.ofRows 1 (rows a) := by
  have hkept : ∀ n, 1 ≤ n → n < 1 + (rows a).length → lowered (a.count 10) n = n + 0 := by
    intro n _ hlt
    rw [ha.length_rows] at hlt
    exact if_neg (by omega)
  exact Reading.ofRows_renumber (rows a) hkept

/-- The rows behind a line that is put in are moved down by one. -/
theorem renumber_lowered_behind (n : Nat) (rs : List (List UInt8)) :
    (Reading.ofRows (1 + n) rs).renumber (lowered n) = Reading.ofRows (1 + n + 1) rs :=
  Reading.ofRows_renumber rs fun k hle _ => if_pos (by omega)

/-- A blank line in front of a line, or behind the last one, changes nothing but the numbers of the
lines behind it. -/
theorem compile_insert_blank {source source' : Source} {a b : List UInt8} (ha : EndsLine a)
    (count : Nat) (h : Delivers source (a ++ b))
    (h' : Delivers source' (a ++ (tabs count ++ 10 :: b))) :
    compile source' = (compile source).renumber (lowered (a.count 10)) := by
  have hblank : LineText 1 (tabs count) .blank := LineText.blank count
  have hread : readAll (Scanner.ofSource source) =
      (Reading.ofRows 1 (rows a)).append (Reading.ofRows (1 + a.count 10) (rows b)) := by
    rw [readAll_of_delivers h, ha.rows_append, Reading.ofRows_append, ha.length_rows]
  have hread' : readAll (Scanner.ofSource source') =
      (Reading.ofRows 1 (rows a)).append
        (Reading.blank.append (Reading.ofRows (1 + a.count 10 + 1) (rows b))) := by
    rw [readAll_of_delivers h', ha.rows_append, rows_append_newline hblank.newline_notMem,
      Reading.ofRows_append, ha.length_rows, Reading.ofRows, Reading.ofBytes_blank]
    rfl
  apply Compilation.compile_renumber
  calc Compilation.ofReading (readAll (Scanner.ofSource source'))
      = Compilation.ofReading ((Reading.ofRows 1 (rows a)).append
          (Reading.ofRows (1 + a.count 10 + 1) (rows b))) := by
        rw [hread', Compilation.ofReading_append_blank]
    _ = Compilation.ofReading
          ((readAll (Scanner.ofSource source)).renumber (lowered (a.count 10))) := by
        rw [hread, Reading.renumber_append, renumber_lowered_before ha, renumber_lowered_behind]
    _ = (Compilation.parse source).renumber (lowered (a.count 10)) :=
        Compilation.ofReading_renumber _ _

/-- Three tabs on a line of their own between the tag `zz` and the tag `yy` inside of it, which is
left unfinished. Both are warned of, and only what concerns the second one is moved down. -/
theorem compile_insert_blank_in_unfinished :
    EndsLine [0x7A, 0x7A, 0x0A] ∧
      Delivers (.ofBytes [0x7A, 0x7A, 0x0A, 0x09, 0x79, 0x79, 0x20])
        ([0x7A, 0x7A, 0x0A] ++ [0x09, 0x79, 0x79, 0x20]) ∧
      Delivers [.data [0x7A, 0x7A, 0x0A, 0x09], .interrupted,
          .data [0x09, 0x09, 0x0A, 0x09, 0x79, 0x79, 0x20]]
        ([0x7A, 0x7A, 0x0A] ++ (tabs 3 ++ 10 :: [0x09, 0x79, 0x79, 0x20])) ∧
      compile [.data [0x7A, 0x7A, 0x0A, 0x09], .interrupted,
          .data [0x09, 0x09, 0x0A, 0x09, 0x79, 0x79, 0x20]] =
        (compile (.ofBytes [0x7A, 0x7A, 0x0A, 0x09, 0x79, 0x79, 0x20])).renumber (lowered 1) ∧
      (compile (.ofBytes [0x7A, 0x7A, 0x0A, 0x09, 0x79, 0x79, 0x20])).events =
        [.unknownTag "zz" 1, .opened "zz" 0, .unknownTag "yy" 2, .opened "yy" 1,
          .parseFailed ⟨.unexpectedEnd .attributeName, 2⟩] := by
  have hends : EndsLine [0x7A, 0x7A, 0x0A] := Or.inr rfl
  have hsource : Delivers (.ofBytes [0x7A, 0x7A, 0x0A, 0x09, 0x79, 0x79, 0x20])
      ([0x7A, 0x7A, 0x0A] ++ [0x09, 0x79, 0x79, 0x20]) := delivers_ofBytes _
  have hsource' : Delivers [.data [0x7A, 0x7A, 0x0A, 0x09], .interrupted,
      .data [0x09, 0x09, 0x0A, 0x09, 0x79, 0x79, 0x20]]
      ([0x7A, 0x7A, 0x0A] ++ (tabs 3 ++ 10 :: [0x09, 0x79, 0x79, 0x20])) :=
    .data (by decide) (.interrupted (.data (by decide) .ended))
  exact ⟨hends, hsource, hsource', compile_insert_blank hends 3 hsource hsource', by decide +kernel⟩

end TabMarkup
