/-!
# Rows of bytes

A text is cut into rows behind its newlines, so that a row keeps the newline that ends it. Only the
last row may be without one, and then it is not empty. Rows that are ended stay what they are when
something else is put behind them (`rows_flatten_append`).
-/

namespace TabMarkup

/-- The rows of a text, each with the newline that ends it. -/
def rows : List UInt8 → List (List UInt8)
  | [] => []
  | b :: bytes =>
    if b = 10 then [b] :: rows bytes
    else
      match rows bytes with
      | [] => [[b]]
      | row :: rest => (b :: row) :: rest

/-- A row with the newline that ends it. -/
def Ended (row : List UInt8) : Prop :=
  ∃ w, (10 : UInt8) ∉ w ∧ row = w ++ [10]

/-- Up to its newline, or without one up to its end, a text is its first row. -/
theorem rows_append_newline {w : List UInt8} (hw : (10 : UInt8) ∉ w) (rest : List UInt8) :
    rows (w ++ 10 :: rest) = (w ++ [10]) :: rows rest := by
  induction w with
  | nil => simp [rows]
  | cons b w ih =>
    have hb : b ≠ 10 := fun h => hw (by simp [h])
    have hrest : rows (w ++ 10 :: rest) = (w ++ [10]) :: rows rest :=
      ih fun h => hw (List.mem_cons_of_mem b h)
    rw [List.cons_append, rows, if_neg hb, hrest]
    rfl

theorem rows_of_notMem {w : List UInt8} (hne : w ≠ []) (hw : (10 : UInt8) ∉ w) : rows w = [w] := by
  induction w with
  | nil => exact absurd rfl hne
  | cons b w ih =>
    have hb : b ≠ 10 := fun h => hw (by simp [h])
    rw [rows, if_neg hb]
    cases w with
    | nil => simp [rows]
    | cons c w => rw [ih (by simp) fun h => hw (List.mem_cons_of_mem b h)]

/-- A text is one without a newline, or something up to its first newline and a text behind it. -/
@[elab_as_elim]
theorem newlineInduction {motive : List UInt8 → Prop} (last : ∀ w, (10 : UInt8) ∉ w → motive w)
    (newline : ∀ w rest, (10 : UInt8) ∉ w → motive rest → motive (w ++ 10 :: rest))
    (bytes : List UInt8) : motive bytes := by
  induction hn : bytes.length using Nat.strongRecOn generalizing bytes with
  | ind n ih =>
    by_cases hmem : (10 : UInt8) ∈ bytes
    · obtain ⟨w, rest, rfl, hw⟩ := List.eq_append_cons_of_mem hmem
      have hlt : rest.length < n := by
        rw [← hn, List.length_append, List.length_cons]
        omega
      exact newline w rest hw (ih rest.length hlt rest rfl)
    · exact last bytes hmem

/-- The rows of a text are the text. -/
theorem flatten_rows (bytes : List UInt8) : (rows bytes).flatten = bytes := by
  induction bytes with
  | nil => rfl
  | cons b bytes ih =>
    rw [rows]
    split
    · simp [ih]
    · cases hrows : rows bytes with
      | nil =>
        rw [hrows, List.flatten_nil] at ih
        simp [← ih]
      | cons row rest =>
        rw [hrows, List.flatten_cons] at ih
        simp [← ih]

/-- A text that has rows begins with a row that is ended, or is a row without a newline. -/
theorem rows_eq_cons {bytes row : List UInt8} {rest : List (List UInt8)}
    (h : rows bytes = row :: rest) :
    (Ended row ∧ bytes = row ++ rest.flatten ∧ rows rest.flatten = rest) ∨
      ((10 : UInt8) ∉ row ∧ row ≠ [] ∧ rest = [] ∧ bytes = row) := by
  by_cases hmem : (10 : UInt8) ∈ bytes
  · left
    obtain ⟨w, tail, rfl, hw⟩ := List.eq_append_cons_of_mem hmem
    rw [rows_append_newline hw] at h
    obtain ⟨rfl, rfl⟩ := List.cons.inj h
    rw [flatten_rows]
    exact ⟨⟨w, hw, rfl⟩, by simp, rfl⟩
  · right
    have hne : bytes ≠ [] := by
      rintro rfl
      cases h
    rw [rows_of_notMem hne hmem] at h
    obtain ⟨rfl, rfl⟩ := List.cons.inj h
    exact ⟨hmem, hne, rfl, rfl⟩

/-- The rows behind the first one are the rows of what they make up. -/
theorem rows_flatten_rest {bytes row : List UInt8} {rest : List (List UInt8)}
    (h : rows bytes = row :: rest) : rows rest.flatten = rest := by
  rcases rows_eq_cons h with ⟨_, _, hrest⟩ | ⟨_, _, rfl, _⟩
  · exact hrest
  · rfl

/-- A text without a newline has no more than one row. -/
theorem rest_eq_nil_of_notMem {bytes row : List UInt8} {rest : List (List UInt8)}
    (h : rows bytes = row :: rest) (hbytes : (10 : UInt8) ∉ bytes) : rest = [] := by
  rcases rows_eq_cons h with ⟨⟨w, _, rfl⟩, rfl, _⟩ | ⟨_, _, hrest, _⟩
  · simp at hbytes
  · exact hrest

/-- Every row but the last is ended. -/
theorem ended_of_rows_eq_append {bytes row : List UInt8} {before after : List (List UInt8)}
    (h : rows bytes = before ++ row :: after) : ∀ r ∈ before, Ended r := by
  induction before generalizing bytes with
  | nil => simp
  | cons first before ih =>
    rcases rows_eq_cons h with ⟨hfirst, _, hrest⟩ | ⟨_, _, hnone, _⟩
    · exact List.forall_mem_cons.mpr ⟨hfirst, ih hrest⟩
    · simp at hnone

/-- A row is ended, or it has no newline and is not empty. -/
theorem ended_or_of_mem_rows {bytes row : List UInt8} (h : row ∈ rows bytes) :
    Ended row ∨ ((10 : UInt8) ∉ row ∧ row ≠ []) := by
  induction hn : rows bytes generalizing bytes with
  | nil =>
    rw [hn] at h
    cases h
  | cons first rest ih =>
    rw [hn] at h
    rcases rows_eq_cons hn with ⟨hfirst, _, hrest⟩ | ⟨hnotMem, hne, rfl, _⟩
    · rcases List.mem_cons.mp h with rfl | h
      · exact Or.inl hfirst
      · rw [← hrest] at h
        exact ih h hrest
    · obtain rfl := List.mem_singleton.mp h
      exact Or.inr ⟨hnotMem, hne⟩

/-- A row on its own is its only row. -/
theorem rows_of_mem_rows {bytes row : List UInt8} (h : row ∈ rows bytes) : rows row = [row] := by
  rcases ended_or_of_mem_rows h with ⟨w, hw, rfl⟩ | ⟨hnotMem, hne⟩
  · rw [rows_append_newline hw]
    rfl
  · exact rows_of_notMem hne hnotMem

/-- Rows that are ended are the first rows of what they begin. -/
theorem rows_flatten_append {before : List (List UInt8)} (hbefore : ∀ r ∈ before, Ended r)
    (u : List UInt8) : rows (before.flatten ++ u) = before ++ rows u := by
  induction before with
  | nil => rfl
  | cons first before ih =>
    obtain ⟨⟨w, hw, rfl⟩, hrest⟩ := List.forall_mem_cons.mp hbefore
    have hflatten : ((w ++ [10]) :: before).flatten ++ u = w ++ 10 :: (before.flatten ++ u) := by
      simp
    rw [hflatten, rows_append_newline hw, ih hrest, List.cons_append]

/-! ## Lines without their newlines -/

/-- What has no newline in it is in one line with what follows it. -/
theorem exists_splitOn_append {w : List UInt8} (hw : (10 : UInt8) ∉ w) (bytes : List UInt8) :
    ∃ rest ws, (w ++ bytes).splitOn 10 = (w ++ rest) :: ws ∧ rest <+: bytes := by
  induction bytes using newlineInduction with
  | last v hv => exact ⟨v, [], List.splitOn_eq_singleton (by simp [hw, hv]), List.prefix_rfl⟩
  | newline v bytes hv _ =>
    refine ⟨v, bytes.splitOn 10, ?_, List.prefix_append v _⟩
    rw [← List.append_assoc, List.splitOn_append_cons_self_of_not_mem (by simp [hw, hv])]

/-- Lines with their newlines are the first lines of what they begin. -/
theorem splitOn_flatMap_append {ws : List (List UInt8)} (hws : ∀ w ∈ ws, (10 : UInt8) ∉ w)
    (bytes : List UInt8) :
    (ws.flatMap (· ++ [10]) ++ bytes).splitOn 10 = ws ++ bytes.splitOn 10 := by
  induction ws with
  | nil => rfl
  | cons w ws ih =>
    obtain ⟨hw, hrest⟩ := List.forall_mem_cons.mp hws
    rw [List.flatMap_cons, List.append_assoc, List.append_assoc, List.cons_append, List.nil_append,
      List.splitOn_append_cons_self_of_not_mem hw, ih hrest, List.cons_append]

/-! ## Whole rows -/

/-- A text that is nothing but ended rows. -/
def EndsLine (bytes : List UInt8) : Prop :=
  bytes = [] ∨ bytes.getLast? = some 10

theorem EndsLine.of_append {w rest : List UInt8} (h : EndsLine (w ++ 10 :: rest)) :
    EndsLine rest := by
  cases rest with
  | nil => exact Or.inl rfl
  | cons b rest =>
    right
    simpa [EndsLine, List.getLast?_cons_cons] using h

/-- Without a newline, only the empty text is one of ended rows. -/
theorem EndsLine.eq_nil {w : List UInt8} (h : EndsLine w) (hw : (10 : UInt8) ∉ w) : w = [] := by
  rcases h with h | h
  · exact h
  · exact absurd (List.mem_of_getLast? h) hw

/-- What stands behind ended rows has rows of its own. -/
theorem EndsLine.rows_append {a : List UInt8} (ha : EndsLine a) (b : List UInt8) :
    rows (a ++ b) = rows a ++ rows b := by
  induction a using newlineInduction with
  | last w hw =>
    rw [ha.eq_nil hw]
    rfl
  | newline w rest hw ih =>
    rw [List.append_assoc, List.cons_append, rows_append_newline hw, rows_append_newline hw,
      ih ha.of_append, List.cons_append]

/-- Each ended row has one newline. -/
theorem EndsLine.length_rows {a : List UInt8} (ha : EndsLine a) : (rows a).length = a.count 10 := by
  induction a using newlineInduction with
  | last w hw =>
    rw [ha.eq_nil hw]
    rfl
  | newline w rest hw ih =>
    rw [rows_append_newline hw, List.length_cons, ih ha.of_append, List.count_append,
      List.count_eq_zero_of_not_mem hw, List.count_cons_self]
    omega

end TabMarkup
