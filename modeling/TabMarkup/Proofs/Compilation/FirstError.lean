import TabMarkup.Proofs.Compilation.Grammar
import TabMarkup.Proofs.Line.RowByRow

/-!
# The first row that does not compile

Whether a row of a source can be compiled, and with which fault it cannot, does not depend on the
other rows. So a source compiles if each of its rows does, and otherwise stops with the error that
the first bad row has on its own, which is then on the line of that row (`compile_first_error`).
-/

namespace TabMarkup

open Grammar Scan

namespace Compilation

/-- The error that a compilation ended with. -/
def error? (c : Compilation) : Option ParseError :=
  match c.result with
  | .ok _ => none
  | .error e => some e

theorem error?_eq_none_iff {c : Compilation} : c.error? = none ↔ ∃ q, c.result = .ok q := by
  unfold error?
  cases c.result <;> simp

theorem error?_eq_some_iff {c : Compilation} {e : ParseError} :
    c.error? = some e ↔ c.result = .error e := by
  unfold error?
  cases c.result <;> simp

/-- A compilation ends with the error that the reading of the lines stops with. -/
theorem error?_compile (source : Source) :
    (compile source).error? = (Line.readAll (Scanner.ofSource source)).stop?.map (·.error) := by
  change (ofReading (Line.readAll (Scanner.ofSource source))).error? = _
  unfold ofReading error?
  cases (Line.readAll (Scanner.ofSource source)).stop? <;> rfl

/-- The error of the first row that does not compile on its own, on the line that it has if `number`
is the line of the first row. -/
def firstError (number : Nat) : List (List UInt8) → Option ParseError
  | [] => none
  | row :: rest =>
    match (compile (.ofBytes row)).error? with
    | some e => some ⟨e.fault, number⟩
    | none => firstError (number + 1) rest

theorem firstError_of_some {row : List UInt8} {e : ParseError}
    (h : (compile (.ofBytes row)).error? = some e) (number : Nat) (rest : List (List UInt8)) :
    firstError number (row :: rest) = some ⟨e.fault, number⟩ := by
  rw [firstError, h]

theorem firstError_of_none {row : List UInt8} (h : (compile (.ofBytes row)).error? = none)
    (number : Nat) (rest : List (List UInt8)) :
    firstError number (row :: rest) = firstError (number + 1) rest := by
  rw [firstError, h]

/-- Behind rows that compile, the first error is that of the other rows. -/
theorem firstError_append {before : List (List UInt8)}
    (hbefore : ∀ r ∈ before, (compile (.ofBytes r)).error? = none) (number : Nat)
    (rest : List (List UInt8)) :
    firstError number (before ++ rest) = firstError (number + before.length) rest := by
  induction before generalizing number with
  | nil => rfl
  | cons row before ih =>
    obtain ⟨hrow, hrest⟩ := List.forall_mem_cons.mp hbefore
    rw [List.cons_append, firstError_of_none hrow, ih hrest, List.length_cons]
    congr 1
    omega

/-- What is first wrong with rows is first wrong with them and others behind them. -/
theorem firstError_append_of_some {before : List (List UInt8)} {number : Nat} {e : ParseError}
    (h : firstError number before = some e) (rest : List (List UInt8)) :
    firstError number (before ++ rest) = some e := by
  induction before generalizing number with
  | nil => cases h
  | cons row before ih =>
    rw [List.cons_append]
    cases hrow : (compile (.ofBytes row)).error? with
    | some error => rwa [firstError_of_some hrow] at h ⊢
    | none =>
      rw [firstError_of_none hrow] at h ⊢
      exact ih h

/-- Further down the same is wrong, further down. -/
theorem firstError_add (number down : Nat) (rs : List (List UInt8)) :
    firstError (number + down) rs =
      (firstError number rs).map fun e => ⟨e.fault, e.line + down⟩ := by
  induction rs generalizing number with
  | nil => rfl
  | cons row rest ih =>
    cases hrow : (compile (.ofBytes row)).error? with
    | some error => rw [firstError_of_some hrow, firstError_of_some hrow, Option.map_some]
    | none => rw [firstError_of_none hrow, firstError_of_none hrow, Nat.add_right_comm, ih]

theorem firstError_eq_none_iff {number : Nat} {rs : List (List UInt8)} :
    firstError number rs = none ↔ ∀ row ∈ rs, (compile (.ofBytes row)).error? = none := by
  induction rs generalizing number with
  | nil => simp [firstError]
  | cons row rest ih =>
    rw [List.forall_mem_cons]
    cases hrow : (compile (.ofBytes row)).error? with
    | none => simp [firstError_of_none hrow, ih]
    | some e => simp [firstError_of_some hrow]

/-- The first error is that of a row behind rows that compile. -/
theorem exists_of_firstError {number : Nat} {rs : List (List UInt8)} {e : ParseError}
    (h : firstError number rs = some e) :
    ∃ before row after error, rs = before ++ row :: after ∧ number + before.length = e.line ∧
      (∀ r ∈ before, (compile (.ofBytes r)).error? = none) ∧
      (compile (.ofBytes row)).error? = some error ∧ error.fault = e.fault := by
  induction rs generalizing number with
  | nil => cases h
  | cons row rest ih =>
    cases hrow : (compile (.ofBytes row)).error? with
    | some error =>
      rw [firstError_of_some hrow] at h
      cases h
      exact ⟨[], row, rest, error, rfl, rfl, by simp, hrow, rfl⟩
    | none =>
      rw [firstError_of_none hrow] at h
      obtain ⟨before, row', after, error, rfl, hline, hbefore, hrow', hfault⟩ := ih h
      refine ⟨row :: before, row', after, error, rfl, ?_, List.forall_mem_cons.mpr ⟨hrow, hbefore⟩,
        hrow', hfault⟩
      rw [List.length_cons]
      omega

/-- The reading of rows stops with what is first wrong with them. -/
theorem stop?_ofRows (number : Nat) (rs : List (List UInt8)) :
    (Line.Reading.ofRows number rs).stop?.map (·.error) = firstError number rs := by
  induction rs generalizing number with
  | nil => rfl
  | cons row rest ih =>
    have hcompile : (compile (.ofBytes row)).error? =
        (Line.Reading.ofBytes row).stop?.map (·.error) := error?_compile (.ofBytes row)
    rw [Line.Reading.ofRows]
    cases h : (Line.Reading.ofBytes row).stop? with
    | some stop =>
      have hstop : ((Line.Reading.ofBytes row).renumber fun _ => number).stop? =
          some (stop.renumber fun _ => number) := by simp [Line.Reading.renumber, h]
      rw [h] at hcompile
      rw [Line.Reading.append_of_some hstop, hstop, firstError_of_some hcompile]
      rfl
    | none =>
      have hstop : ((Line.Reading.ofBytes row).renumber fun _ => number).stop? = none := by
        simp [Line.Reading.renumber, h]
      rw [h] at hcompile
      rw [Line.Reading.append_of_none hstop, firstError_of_none hcompile, ← ih]

/-- What is wrong with a source is what is first wrong with its rows. -/
theorem error?_of_delivers {source : Source} {bytes : List UInt8} (h : Delivers source bytes) :
    (compile source).error? = firstError 1 (rows bytes) := by
  rw [error?_compile, readAll_of_delivers h, stop?_ofRows]

/-- Behind ended rows that compile, what is wrong is what is wrong with the rest, further down. -/
theorem error?_behind {source : Source} {a b : List UInt8} (ha : EndsLine a)
    (hok : ∃ q, (compile (.ofBytes a)).result = .ok q) (h : Delivers source (a ++ b)) :
    (compile source).error? =
      (compile (.ofBytes b)).error?.map fun e => ⟨e.fault, e.line + a.count 10⟩ := by
  have hnone : firstError 1 (rows a) = none := by
    rw [← error?_of_delivers (delivers_ofBytes a)]
    exact error?_eq_none_iff.mpr hok
  rw [error?_of_delivers h, ha.rows_append,
    firstError_append (firstError_eq_none_iff.mp hnone), firstError_add, ha.length_rows,
    error?_of_delivers (delivers_ofBytes b)]

end Compilation

open Compilation

/-- A source compiles exactly if each of its rows does on its own. If it does not, the error is that
of one row: the rows before it compile together, the row alone has the same fault on line 1, and
what stands behind its newline may be anything. -/
theorem compile_first_error {source : Source} {bytes : List UInt8} (h : Delivers source bytes) :
    ((∃ q, (compile source).result = .ok q) ↔
      ∀ row ∈ rows bytes, ∃ q, (compile (.ofBytes row)).result = .ok q) ∧
    ∀ e, (compile source).result = .error e →
      ∃ before row after, rows bytes = before ++ row :: after ∧ before.length + 1 = e.line ∧
        (∃ q, (compile (.ofBytes before.flatten)).result = .ok q) ∧
        (compile (.ofBytes row)).result = .error ⟨e.fault, 1⟩ ∧
        (row.getLast? = some 10 →
          ∀ u, (compile (.ofBytes (before.flatten ++ row ++ u))).result = .error e) := by
  have hsource := Compilation.error?_of_delivers h
  constructor
  · simp only [← error?_eq_none_iff]
    rw [hsource, firstError_eq_none_iff]
  · intro e he
    rw [← error?_eq_some_iff, hsource] at he
    obtain ⟨before, row, after, error, hrows, hline, hbefore, hrow, hfault⟩ :=
      exists_of_firstError he
    have hended := ended_of_rows_eq_append hrows
    have hmem : row ∈ rows bytes := by simp [hrows]
    refine ⟨before, row, after, hrows, by omega, ?_, ?_, ?_⟩
    · have hall : rows before.flatten = before := by
        simpa [rows] using rows_flatten_append hended []
      rw [← error?_eq_none_iff, error?_of_delivers (delivers_ofBytes _), hall,
        firstError_eq_none_iff]
      exact hbefore
    · rw [← error?_eq_some_iff, error?_of_delivers (delivers_ofBytes _), rows_of_mem_rows hmem,
        firstError_of_some hrow, hfault]
    · intro hlast u
      have hrowEnded : Ended row := by
        rcases ended_or_of_mem_rows hmem with hrowEnded | ⟨hnotMem, _⟩
        · exact hrowEnded
        · exact absurd (List.mem_of_getLast? hlast) hnotMem
      have hall : rows (before.flatten ++ row ++ u) = before ++ row :: rows u := by
        have hsplit : ∀ r ∈ before ++ [row], Ended r :=
          List.forall_mem_append.mpr ⟨hended, List.forall_mem_singleton.mpr hrowEnded⟩
        simpa using rows_flatten_append hsplit u
      rw [← error?_eq_some_iff, error?_of_delivers (delivers_ofBytes _), hall,
        firstError_append hbefore, firstError_of_some hrow, hfault, hline]

/-- The second line is `{{x`, which its newline leaves unfinished. The first line is the tag `p`,
and what comes behind the second one makes no difference. -/
theorem compile_first_error_of_unfinished :
    Delivers [.data [0x70, 0x0A, 0x7B], .interrupted, .data [0x7B, 0x78, 0x0A, 0x71]]
        [0x70, 0x0A, 0x7B, 0x7B, 0x78, 0x0A, 0x71] ∧
      (compile [.data [0x70, 0x0A, 0x7B], .interrupted, .data [0x7B, 0x78, 0x0A, 0x71]]).result =
        .error ⟨.malformedEmbedding, 2⟩ ∧
      (compile (.ofBytes [0x7B, 0x7B, 0x78, 0x0A])).result = .error ⟨.malformedEmbedding, 1⟩ ∧
      ∀ u, (compile (.ofBytes ([0x70, 0x0A, 0x7B, 0x7B, 0x78, 0x0A] ++ u))).result =
        .error ⟨.malformedEmbedding, 2⟩ := by
  have hdelivers : Delivers
      [.data [0x70, 0x0A, 0x7B], .interrupted, .data [0x7B, 0x78, 0x0A, 0x71]]
      [0x70, 0x0A, 0x7B, 0x7B, 0x78, 0x0A, 0x71] :=
    .data (by decide) (.interrupted (.data (by decide) .ended))
  have herror : (compile
      [.data [0x70, 0x0A, 0x7B], .interrupted, .data [0x7B, 0x78, 0x0A, 0x71]]).result =
      .error ⟨.malformedEmbedding, 2⟩ := by
    apply error?_eq_some_iff.mp
    decide +kernel
  obtain ⟨_, hfirst⟩ := compile_first_error hdelivers
  obtain ⟨before, row, after, hrows, hline, _, hrow, hrest⟩ := hfirst _ herror
  have hall : rows [0x70, 0x0A, 0x7B, 0x7B, 0x78, 0x0A, 0x71] =
      [[0x70, 0x0A]] ++ [0x7B, 0x7B, 0x78, 0x0A] :: [[0x71]] := by
    decide
  have hlength : before.length = 1 := Nat.succ.inj hline
  obtain ⟨rfl, htail⟩ := List.append_inj (hrows.symm.trans hall) hlength
  obtain ⟨rfl, rfl⟩ := List.cons.inj htail
  exact ⟨hdelivers, herror, hrow, hrest rfl⟩

end TabMarkup
