import TabMarkup.Proofs.Line.Document
import TabMarkup.Proofs.Line.FirstLine
import TabMarkup.Proofs.Renumbering

/-!
# Reading row by row

Whether a row can be read, and as which line, does not depend on the rows around it. So what is read
of a text is what is read of each of its rows alone, one after another up to the first row that
stops the reading, only that each row has its own number in the text (`readAll_eq_ofRows`).
-/

namespace TabMarkup

open Grammar Scan

namespace Line

/-- In a place with other tabs or another number, the line is the same but for these. -/
theorem Counterpart.eq_renumber {tabs number number' : Nat} {line line' : Line} {f : Nat → Nat}
    (h : Counterpart tabs number tabs number' line line') (hf : f number = number') :
    line' = line.renumber f := by
  subst hf
  cases h <;> rfl

theorem Reached.Counterpart.eq_renumber {tabs number number' : Nat} {reached reached' : Reached}
    {f : Nat → Nat} (h : Reached.Counterpart tabs number tabs number' reached reached')
    (hf : f number = number') : reached' = reached.renumber f := by
  subst hf
  cases h <;> rfl

/-- The same stop in another line. -/
theorem StopsAlike.eq_renumber {tabs number number' : Nat} {stop stop' : Stop}
    (h : StopsAlike (SameFault number number') tabs number tabs number' stop stop') :
    stop' = stop.renumber fun _ => number' := by
  obtain ⟨⟨hfault, _, hline⟩, hreached⟩ := h
  obtain ⟨⟨fault, line⟩, reached⟩ := stop
  obtain ⟨⟨fault', line'⟩, reached'⟩ := stop'
  cases hfault
  cases hline
  cases hreached.eq_renumber (f := fun _ => line') rfl
  rfl

namespace Reading

/-- What is read of one text and of another one behind it, if the first is read to its end. -/
def append (r r' : Reading) : Reading :=
  match r.stop? with
  | some _ => r
  | none => { r' with lines := r.lines ++ r'.lines }

/-- What is read of a text. -/
def ofBytes (bytes : List UInt8) : Reading :=
  readAll (Scanner.ofSource (Source.ofBytes bytes))

/-- What is read of a blank line. -/
def blank : Reading :=
  { lines := [.blank], stop? := none }

/-- What is read of rows one after another, of each as on its own, if `number` is the number of the
first. -/
def ofRows (number : Nat) : List (List UInt8) → Reading
  | [] => { lines := [], stop? := none }
  | row :: rest => ((ofBytes row).renumber fun _ => number).append (ofRows (number + 1) rest)

/-! ## One reading behind another -/

theorem append_of_some {r : Reading} {stop : Stop} (h : r.stop? = some stop) (r' : Reading) :
    r.append r' = r := by
  rw [append, h]

theorem append_of_none {r : Reading} (h : r.stop? = none) (r' : Reading) :
    r.append r' = { lines := r.lines ++ r'.lines, stop? := r'.stop? } := by
  rw [append, h]

@[simp] theorem append_nil (r : Reading) : r.append { lines := [], stop? := none } = r := by
  obtain ⟨lines, stop?⟩ := r
  cases stop? with
  | some stop => rfl
  | none => rw [append_of_none rfl, List.append_nil]

theorem append_assoc (r r' r'' : Reading) :
    (r.append r').append r'' = r.append (r'.append r'') := by
  cases h : r.stop? with
  | some stop => rw [append_of_some h, append_of_some h, append_of_some h]
  | none =>
    cases h' : r'.stop? with
    | some stop =>
      have hstop : (r.append r').stop? = some stop := by rw [append_of_none h, h']
      rw [append_of_some hstop, append_of_some h']
    | none =>
      have hstop : (r.append r').stop? = none := by rw [append_of_none h, h']
      rw [append_of_none hstop, append_of_none h, append_of_none h, append_of_none h',
        List.append_assoc]

theorem renumber_append (f : Nat → Nat) (r r' : Reading) :
    (r.append r').renumber f = (r.renumber f).append (r'.renumber f) := by
  cases h : r.stop? with
  | some stop =>
    have hstop : (r.renumber f).stop? = some (stop.renumber f) := by simp [renumber, h]
    rw [append_of_some h, append_of_some hstop]
  | none =>
    have hstop : (r.renumber f).stop? = none := by simp [renumber, h]
    rw [append_of_none h, append_of_none hstop]
    simp [renumber]

theorem ofRows_single (number : Nat) (row : List UInt8) :
    ofRows number [row] = (ofBytes row).renumber fun _ => number :=
  append_nil _

theorem ofRows_append (number : Nat) (rs rest : List (List UInt8)) :
    ofRows number (rs ++ rest) = (ofRows number rs).append (ofRows (number + rs.length) rest) := by
  induction rs generalizing number with
  | nil => simp [ofRows, append]
  | cons row rs ih =>
    have hlength : number + 1 + rs.length = number + (row :: rs).length := by
      rw [List.length_cons]
      omega
    rw [List.cons_append, ofRows, ih, ofRows, append_assoc, hlength]

/-- Where all rows are moved down alike, they are read as the rows further down. -/
theorem ofRows_renumber {f : Nat → Nat} {number down : Nat} (rs : List (List UInt8))
    (hf : ∀ n, number ≤ n → n < number + rs.length → f n = n + down) :
    (ofRows number rs).renumber f = ofRows (number + down) rs := by
  induction rs generalizing number with
  | nil => rfl
  | cons row rs ih =>
    rw [List.length_cons] at hf
    have hfirst : f number = number + down := hf number (Nat.le_refl _) (by omega)
    have hrest : (ofRows (number + 1) rs).renumber f = ofRows (number + 1 + down) rs :=
      ih fun n hle hlt => hf n (by omega) (by omega)
    have hrow : (f ∘ fun _ : Nat => number) = fun _ => number + down := funext fun _ => hfirst
    rw [ofRows, renumber_append, renumber_renumber, hrow, hrest, Nat.add_right_comm, ofRows]

end Reading

end Line

open Line

/-! ## A text and its rows -/

/-- A text begins with the same line as its first row. -/
theorem sameFirstLine_of_rows_eq_cons {bytes row : List UInt8} {rest : List (List UInt8)}
    (h : rows bytes = row :: rest) : SameFirstLine row bytes := by
  rcases rows_eq_cons h with ⟨⟨w, _, rfl⟩, rfl, _⟩ | ⟨_, _, _, rfl⟩
  · rw [List.append_assoc, List.singleton_append]
    exact SameFirstLine.of_newline w [] rest.flatten
  · exact SameFirstLine.refl _

/-- At the end of the tape nothing is left to be read. -/
theorem readAll_over {s : Scanner} {line : Nat} {owed : Bool}
    (hs : s.cursor.At { bytes := [] } line owed) :
    readAll s = { lines := [], stop? := none } := by
  obtain ⟨u, hover⟩ := read_over hs
  exact readAll_of_none hover

/-- Once the first row is read, reading goes on with the other rows, if there are any. -/
theorem readAll_of_row {s s' : Scanner} {bytes row : List UInt8} {rest : List (List UInt8)}
    {line number : Nat} {owed : Bool} {found? : Option Line} (hs : s.cursor.At { bytes } line owed)
    (hnumber : (if owed then line + 1 else line) = number) (hrows : rows bytes = row :: rest)
    (hread : Line.read s = .ok found? s') :
    (readAll s = { lines := found?.toList, stop? := none } ∧ rest = []) ∨
      (readAll s = { lines := found?.toList ++ (readAll s').lines, stop? := (readAll s').stop? } ∧
        s'.cursor.At { bytes := rest.flatten } number true) := by
  rcases read_ok hs hnumber hread with ⟨entry, w, tail, rfl, rfl, hw, hafter⟩ | ⟨count, rfl, rfl, _⟩
  · rw [readAll_of_some hread]
    rcases hafter with ⟨⟨tail, _⟩, htape, hs'⟩ | ⟨htape, hs'⟩
    · right
      cases htape
      change rows (w ++ 10 :: tail) = _ at hrows
      rw [rows_append_newline hw.newline_notMem] at hrows
      obtain ⟨rfl, rfl⟩ := List.cons.inj hrows
      rw [flatten_rows]
      exact ⟨rfl, hs'⟩
    · left
      cases htape
      have hnotMem : (10 : UInt8) ∉ w ++ [] := by simpa using hw.newline_notMem
      exact ⟨by rw [readAll_over hs']; rfl, rest_eq_nil_of_notMem hrows hnotMem⟩
  · left
    have htabs : LineText number (tabs count) .blank := LineText.blank count
    exact ⟨readAll_of_none hread, rest_eq_nil_of_notMem hrows htabs.newline_notMem⟩

/-- Once its only row is read, a text is read to its end. -/
theorem readAll_of_only_row {s s' : Scanner} {row : List UInt8} {line : Nat} {owed : Bool}
    {found? : Option Line} (hs : s.cursor.At { bytes := row } line owed) (hrow : rows row = [row])
    (hread : Line.read s = .ok found? s') :
    readAll s = { lines := found?.toList, stop? := none } := by
  rcases readAll_of_row hs rfl hrow hread with ⟨hall, _⟩ | ⟨hall, hs'⟩
  · exact hall
  · rw [hall, readAll_over hs', List.append_nil]

/-- What is read of tabs and a newline is a blank line. -/
theorem Line.Reading.ofBytes_blank (count : Nat) :
    ofBytes (tabs count ++ [10]) = blank := by
  have hs : (Scanner.ofSource (Source.ofBytes (tabs count ++ [10]))).cursor.At
      { bytes := tabs count ++ [10] } 1 false := Cursor.at_ofBytes _
  have hblank : LineText 1 (tabs count) .blank := LineText.blank count
  obtain ⟨t, hread, _⟩ := read_of_lineText hs rfl hblank (lineEnd_newline []) (by simp)
  exact readAll_of_only_row hs (rows_append_newline hblank.newline_notMem []) hread

/-- What is read of a text is what is read of its rows, each on its own. -/
theorem readAll_eq_ofRows {s : Scanner} {bytes : List UInt8} {line number : Nat} {owed : Bool}
    (hs : s.cursor.At { bytes } line owed) (hnumber : (if owed then line + 1 else line) = number) :
    readAll s = Reading.ofRows number (rows bytes) := by
  induction hrows : rows bytes generalizing s bytes line number owed with
  | nil =>
    have hnil : bytes = [] := by
      rw [← flatten_rows bytes, hrows]
      rfl
    rw [hnil] at hs
    exact readAll_over hs
  | cons row rest ih =>
    have hmem : row ∈ rows bytes := by
      rw [hrows]
      exact List.mem_cons_self
    have hsingle : rows row = [row] := rows_of_mem_rows hmem
    -- The row on its own is read by another scanner, from line 1.
    have ht : (Scanner.ofSource (Source.ofBytes row)).cursor.At { bytes := row } 1 false :=
      Cursor.at_ofBytes row
    obtain ⟨count, halike⟩ := alike_read (sameFirstLine_of_rows_eq_cons hrows) ht hs rfl hnumber
    rw [Reading.ofRows]
    generalize halone : Line.read (Scanner.ofSource (Source.ofBytes row)) = r at halike
    generalize hread : Line.read s = r' at halike
    cases halike with
    | cut hcut => exact hcut.elim
    | @error stop stop' _ _ hstop =>
      have hrow : Reading.ofBytes row = { lines := [], stop? := some stop } :=
        readAll_of_error halone
      rw [readAll_of_error hread, hrow, hstop.eq_renumber]
      rfl
    | @ok found? found?' _ s' hfound =>
      have hrow : Reading.ofBytes row = { lines := found?.toList, stop? := none } :=
        readAll_of_only_row ht hsingle halone
      have hlines : found?'.toList = found?.toList.map (Line.renumber fun _ => number) := by
        cases hfound with
        | none => rfl
        | @some line line' hline =>
          have heq : line' = line.renumber fun _ => number := hline.eq_renumber rfl
          rw [heq]
          rfl
      rw [hrow, Reading.append_of_none rfl, Reading.renumber, ← hlines]
      rcases readAll_of_row hs hnumber hrows hread with ⟨hall, rfl⟩ | ⟨hall, hs'⟩
      · rw [hall, Reading.ofRows, List.append_nil]
      · rw [hall, ih hs' rfl (rows_flatten_rest hrows)]
        rfl

/-- What is read of a source is what is read of the rows that it delivers. -/
theorem readAll_of_delivers {source : Source} {bytes : List UInt8} (h : Delivers source bytes) :
    readAll (Scanner.ofSource source) = Reading.ofRows 1 (rows bytes) := by
  have hs := Cursor.at_ofSource source none
  rw [h.deliver_eq] at hs
  exact readAll_eq_ofRows hs rfl

end TabMarkup
