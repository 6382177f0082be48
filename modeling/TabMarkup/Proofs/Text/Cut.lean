import TabMarkup.Text.Blank
import TabMarkup.Text.Cut

/-!
# Where texts are cut

A mark is found at once where its first character does not occur before it. The white space
around a text is all that trimming takes away.
-/

namespace TabMarkup.Text

/-- The first mark is found behind a text that the mark's first character does not occur in. -/
theorem cut?_append {m : Char} {mark u : List Char} (hu : m ∉ u) (v : List Char) :
    cut? (m :: mark) (u ++ (m :: mark ++ v)) = some (u, v) := by
  induction u with
  | nil =>
    rw [List.nil_append, List.cons_append, cut?]
    simp
  | cons c u ih =>
    have hc : m ≠ c := fun h => hu (by simp [h])
    rw [List.cons_append, cut?, ih fun h => hu (by simp [h])]
    simp [hc]

/-- No mark is found where its first character does not occur. -/
theorem cut?_eq_none {m : Char} {mark u : List Char} (hu : m ∉ u) : cut? (m :: mark) u = none := by
  induction u with
  | nil => rfl
  | cons c u ih =>
    have hc : m ≠ c := fun h => hu (by simp [h])
    rw [cut?, ih fun h => hu (by simp [h])]
    simp [hc]

/-- A known ending comes off. -/
theorem stripEnd?_append (u ending : List Char) : stripEnd? ending (u ++ ending) = some u := by
  simp [stripEnd?]

/-- What is left when an ending comes off is the text before it. -/
theorem stripEnd?_eq_some {ending text u : List Char} (h : stripEnd? ending text = some u) :
    text = u ++ ending := by
  unfold stripEnd? at h
  split at h
  · rename_i hending
    obtain ⟨v, rfl⟩ := List.isSuffixOf_iff_suffix.mp hending
    simpa using h
  · cases h

/-- A text without the mark is one stretch. -/
theorem splitOn_of_notMem {mark : Char} {u : List Char} (hu : mark ∉ u) : splitOn mark u = [u] := by
  induction u with
  | nil => rfl
  | cons c u ih =>
    have hc : c ≠ mark := fun h => hu (by simp [h])
    rw [splitOn, if_neg hc, ih fun h => hu (by simp [h])]

theorem splitOn_ne_nil (mark : Char) (u : List Char) : splitOn mark u ≠ [] := by
  cases u with
  | nil => simp [splitOn]
  | cons c u =>
    rw [splitOn]
    split
    · simp
    · split <;> simp

/-- The stretches before a mark, and the stretches after it. -/
theorem splitOn_append (mark : Char) (u v : List Char) :
    splitOn mark (u ++ mark :: v) = splitOn mark u ++ splitOn mark v := by
  induction u with
  | nil => simp [splitOn]
  | cons c u ih =>
    obtain ⟨first, rest, hu⟩ := List.exists_cons_of_ne_nil (splitOn_ne_nil mark u)
    by_cases hc : c = mark
    · simp [splitOn, hc, ih]
    · simp [splitOn, hc, ih, hu]

/-- The stretches of a text, with the mark between each two, are the text. -/
theorem intercalate_splitOn (mark : Char) (u : List Char) :
    [mark].intercalate (splitOn mark u) = u := by
  induction u with
  | nil => simp [splitOn]
  | cons c u ih =>
    obtain ⟨first, rest, hu⟩ := List.exists_cons_of_ne_nil (splitOn_ne_nil mark u)
    rw [hu] at ih
    by_cases hc : c = mark
    · rw [splitOn, if_pos hc, hu, List.intercalate_cons_cons, ih, hc]
      simp
    · rw [splitOn, if_neg hc, hu]
      cases rest with
      | nil => simpa using ih
      | cons second rest =>
        rw [List.intercalate_cons_cons] at ih ⊢
        simpa using ih

/-- Stretches without the mark, put together with the mark between each two, are found again. -/
theorem splitOn_intercalate {mark : Char} {stretches : List (List Char)} (hne : stretches ≠ [])
    (hmark : ∀ u ∈ stretches, mark ∉ u) :
    splitOn mark ([mark].intercalate stretches) = stretches := by
  induction stretches with
  | nil => exact absurd rfl hne
  | cons u stretches ih =>
    have hu := splitOn_of_notMem (hmark u List.mem_cons_self)
    cases stretches with
    | nil => simpa using hu
    | cons v stretches =>
      have hrest := ih (by simp) fun w hw => hmark w (List.mem_cons_of_mem u hw)
      rw [List.intercalate_cons_cons, List.append_assoc, List.singleton_append, splitOn_append, hu,
        hrest]
      simp

/-- Every character of a text is in one of its stretches or is the mark. -/
theorem mem_splitOn (mark : Char) {c : Char} {text : List Char} (hc : c ∈ text) :
    c = mark ∨ c ∈ (splitOn mark text).flatten := by
  induction text with
  | nil => cases hc
  | cons d text ih =>
    have hc' : c = d ∨ c = mark ∨ c ∈ (splitOn mark text).flatten :=
      (List.mem_cons.mp hc).imp_right ih
    rw [splitOn]
    split
    · rename_i hd
      simpa [hd] using hc'
    · cases hsplit : splitOn mark text with
      | nil => simpa [hsplit, or_comm] using hc'
      | cons first rest => simpa [hsplit, or_left_comm] using hc'

/-- Trimming takes the white space around a text that begins and ends with something else. -/
theorem trim_append {before u after : List Char} (hbefore : ∀ c ∈ before, isBlank c = true)
    (hafter : ∀ c ∈ after, isBlank c = true) (hne : u ≠ [])
    (hfirst : ∀ c ∈ u.head?, isBlank c = false) (hlast : ∀ c ∈ u.getLast?, isBlank c = false) :
    trim (before ++ (u ++ after)) = u := by
  have hstart : trimStart (before ++ (u ++ after)) = u ++ after := by
    obtain ⟨c, u, rfl⟩ := List.exists_cons_of_ne_nil hne
    rw [trimStart, List.dropWhile_append_of_pos hbefore, List.cons_append,
      List.dropWhile_cons_of_neg (by simp [hfirst c rfl])]
  have hend : trimEnd (u ++ after) = u := by
    obtain ⟨c, u', hu⟩ := List.exists_cons_of_ne_nil (List.reverse_ne_nil_iff.mpr hne)
    have hc : isBlank c = false := by
      apply hlast c
      rw [← List.head?_reverse, hu]
      rfl
    rw [trimEnd, List.reverse_append, List.dropWhile_append_of_pos (by simpa using hafter), hu,
      List.dropWhile_cons_of_neg (by simp [hc]), ← hu, List.reverse_reverse]
  rw [trim, hstart, hend]

/-- A text that begins and ends with something else than white space is its own trimmed form. -/
theorem trim_eq_self {u : List Char} (hne : u ≠ []) (hfirst : ∀ c ∈ u.head?, isBlank c = false)
    (hlast : ∀ c ∈ u.getLast?, isBlank c = false) : trim u = u := by
  have htrim : trim ([] ++ (u ++ [])) = u :=
    trim_append (by simp) (by simp) hne hfirst hlast
  simpa using htrim

/-- What is left when the white space in front is dropped does not begin with any. -/
theorem not_isBlank_head?_dropWhile {u : List Char} {c : Char}
    (hc : c ∈ (u.dropWhile isBlank).head?) : isBlank c = false := by
  have hnot := List.head?_dropWhile_not isBlank u
  rwa [hc] at hnot

/-- The second text is the first one without the white space around it. -/
structure TrimsTo (text u : List Char) : Prop where
  around : ∃ before after, text = before ++ u ++ after ∧ (∀ c ∈ before, isBlank c = true) ∧
    ∀ c ∈ after, isBlank c = true
  first : ∀ c ∈ u.head?, isBlank c = false
  last : ∀ c ∈ u.getLast?, isBlank c = false

/-- White space is all that trimming takes from a text, and none is left at its ends. -/
theorem trimsTo_trim (text : List Char) : TrimsTo text (trim text) := by
  have hblank (u : List Char) : ∀ c ∈ u.takeWhile isBlank, isBlank c = true :=
    List.all_eq_true.mp List.all_takeWhile
  have hstart : text.takeWhile isBlank ++ trimStart text = text := List.takeWhile_append_dropWhile
  obtain ⟨after, hend, hafter⟩ : ∃ after, trim text ++ after = trimStart text ∧
      ∀ c ∈ after, isBlank c = true := by
    refine ⟨((trimStart text).reverse.takeWhile isBlank).reverse, ?_, ?_⟩
    · rw [trim, trimEnd, ← List.reverse_append, List.takeWhile_append_dropWhile,
        List.reverse_reverse]
    · intro c hc
      exact hblank _ c (List.mem_reverse.mp hc)
  refine ⟨⟨text.takeWhile isBlank, after, ?_, hblank text, hafter⟩, ?_, ?_⟩
  · rw [List.append_assoc, hend, hstart]
  · intro c hc
    have hfirst : c ∈ (trimStart text).head? := by
      rw [← hend, List.head?_append]
      exact Option.or_eq_some_iff.mpr (Or.inl hc)
    exact not_isBlank_head?_dropWhile hfirst
  · intro c hc
    rw [trim, trimEnd, List.getLast?_reverse] at hc
    exact not_isBlank_head?_dropWhile hc

end TabMarkup.Text
