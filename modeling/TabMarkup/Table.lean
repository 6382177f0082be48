/-!
# Tables

Values under names, in the order in which the names came in. Main statement: a name has the
value that was put under it last (`get?_insert`), until it is taken out (`get?_erase`).
-/

namespace TabMarkup

/-- Values under names. -/
structure Table (α : Type) where
  entries : List (String × α) := []

namespace Table

variable {α : Type}

/-- The value under a name. -/
def get? (t : Table α) (name : String) : Option α :=
  t.entries.lookup name

/-- Puts a value under a name, in the place of the value that is there. -/
def insertEntry (name : String) (a : α) : List (String × α) → List (String × α)
  | [] => [(name, a)]
  | (other, b) :: rest =>
    if name == other then (name, a) :: rest else (other, b) :: insertEntry name a rest

/-- The table with a value under a name. -/
def insert (t : Table α) (name : String) (a : α) : Table α :=
  { entries := insertEntry name a t.entries }

/-- The table without a name. -/
def erase (t : Table α) (name : String) : Table α :=
  { entries := t.entries.filter fun entry => entry.1 ≠ name }

/-- The number of names. -/
def size (t : Table α) : Nat :=
  t.entries.length

/-- Whether there are no names. -/
def isEmpty (t : Table α) : Bool :=
  t.entries.isEmpty

/-- The names in order. -/
def names (t : Table α) : List String :=
  t.entries.map Prod.fst

theorem lookup_insertEntry (name other : String) (a : α) (entries : List (String × α)) :
    (insertEntry name a entries).lookup other =
      if other = name then some a else entries.lookup other := by
  induction entries with
  | nil =>
    by_cases h : other = name
    · simp [insertEntry, h]
    · have hb : (other == name) = false := beq_false_of_ne h
      simp [insertEntry, List.lookup_cons, h, hb]
  | cons entry entries ih =>
    obtain ⟨key, b⟩ := entry
    by_cases hk : name = key
    · subst hk
      by_cases h : other = name
      · simp [insertEntry, h]
      · have hb : (other == name) = false := beq_false_of_ne h
        simp [insertEntry, List.lookup_cons, h, hb]
    · by_cases h : other = key
      · have hne : other ≠ name := fun he => hk (he ▸ h)
        subst h
        simp [insertEntry, hk, hne]
      · have hb : (other == key) = false := beq_false_of_ne h
        simp [insertEntry, hk, List.lookup_cons, hb, ih]

/-- A name has the value that was put under it last. -/
theorem get?_insert (t : Table α) (name other : String) (a : α) :
    (t.insert name a).get? other = if other = name then some a else t.get? other :=
  lookup_insertEntry name other a t.entries

/-- A name that was taken out has no value, and the others keep theirs. -/
theorem get?_erase (t : Table α) (name other : String) :
    (t.erase name).get? other = if other = name then none else t.get? other := by
  unfold get? erase
  induction t.entries with
  | nil => simp
  | cons entry entries ih =>
    obtain ⟨key, b⟩ := entry
    by_cases hk : key = name
    · subst hk
      by_cases h : other = key
      · simpa [h] using ih
      · have hb : (other == key) = false := beq_false_of_ne h
        simpa [h, List.lookup_cons, hb] using ih
    · by_cases h : other = key
      · subst h
        simp [hk]
      · have hb : (other == key) = false := beq_false_of_ne h
        simpa [hk, List.lookup_cons, hb] using ih

end Table

end TabMarkup
