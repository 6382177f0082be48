/-!
# Cutting texts

Cutting a text at the first place where a mark stands or at all of them, and taking a known
ending off a text.
Main statement: the pieces of a cut and the mark between them are together as long as the text.
-/

namespace TabMarkup.Text

/-- The text before the first `mark` and the text after it. -/
def cut? (mark : List Char) : List Char → Option (List Char × List Char)
  | [] => if mark.isEmpty then some ([], []) else none
  | c :: text =>
    if mark.isPrefixOf (c :: text) then some ([], (c :: text).drop mark.length)
    else (cut? mark text).map fun (before, after) => (c :: before, after)

/-- The text before `ending`, if the text ends so. -/
def stripEnd? (ending text : List Char) : Option (List Char) :=
  if ending.isSuffixOf text then some (text.take (text.length - ending.length)) else none

/-- The stretches of a text between the places where `mark` stands; a text without `mark` is one
stretch. -/
def splitOn (mark : Char) : List Char → List (List Char)
  | [] => [[]]
  | c :: text =>
    if c = mark then [] :: splitOn mark text
    else
      match splitOn mark text with
      | [] => [[c]]
      | first :: rest => (c :: first) :: rest

/-- A cut gives the text back: its two pieces with the mark between them. -/
theorem cut?_eq_some {mark text before after : List Char}
    (h : cut? mark text = some (before, after)) : text = before ++ mark ++ after := by
  induction text generalizing before with
  | nil =>
    simp only [cut?] at h
    split at h
    · simp_all
    · cases h
  | cons c text ih =>
    simp only [cut?] at h
    split at h
    · rename_i hmark
      obtain ⟨rest, hrest⟩ := List.isPrefixOf_iff_prefix.mp hmark
      simp only [Option.some.injEq, Prod.mk.injEq] at h
      obtain ⟨rfl, rfl⟩ := h
      rw [← hrest]
      simp
    · simp only [Option.map_eq_some_iff, Prod.exists, Prod.mk.injEq] at h
      obtain ⟨before', after', hcut, rfl, rfl⟩ := h
      simp [ih hcut]

/-- What follows the mark is shorter than the text by at least the mark. -/
theorem cut?_length {mark text before after : List Char}
    (h : cut? mark text = some (before, after)) :
    before.length + mark.length + after.length = text.length := by
  rw [cut?_eq_some h]
  simp [Nat.add_assoc]

end TabMarkup.Text
