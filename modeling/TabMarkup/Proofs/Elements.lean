import TabMarkup.Proofs.Outline

/-!
# Elements

Fragments are read from left to right with the elements that are open, each known by the place of
the fragment that opens it, so that elements of one name are told apart. An element is closed at
one place at most (`Closes.unique`).
-/

namespace TabMarkup

/-- An element: the place of the fragment that opens it, and the name of its tag. -/
structure Opening where
  place : Nat
  name : String
  deriving Repr, DecidableEq

/-- The elements that are open behind a fragment at this place, the innermost first. -/
def Fragment.elementsAfter (place : Nat) (opened : List Opening) : Fragment → List Opening
  | .openTag name | .halfOpenTag name => ⟨place, name⟩ :: opened
  | .closeTag _ => opened.tail
  | .rawText _ | .attr _ | .directive _ => opened

/-- A fragment leaves the open elements as they are, closes the innermost one or opens one. -/
theorem Fragment.elementsAfter_cases (f : Fragment) (place : Nat) (opened : List Opening) :
    f.elementsAfter place opened = opened ∨ f.elementsAfter place opened = opened.tail ∨
      ∃ name, f.elementsAfter place opened = ⟨place, name⟩ :: opened := by
  cases f <;> simp [elementsAfter]

/-- The elements that are open behind fragments of which the first stands at this place. -/
def elementsFrom (place : Nat) (opened : List Opening) : List Fragment → List Opening
  | [] => opened
  | f :: fs => elementsFrom (place + 1) (f.elementsAfter place opened) fs

/-- The elements that are open at the end of fragments, the innermost first. -/
def openElements (fs : List Fragment) : List Opening :=
  elementsFrom 0 [] fs

/-- The fragment at this place closes the element, which is the innermost one there. -/
def Closes (fs : List Fragment) (e : Opening) (place : Nat) : Prop :=
  fs[place]? = some (.closeTag e.name) ∧ (openElements (fs.take place)).head? = some e

theorem elementsFrom_append (place : Nat) (opened : List Opening) (fs rest : List Fragment) :
    elementsFrom place opened (fs ++ rest) =
      elementsFrom (place + fs.length) (elementsFrom place opened fs) rest := by
  induction fs generalizing place opened with
  | nil => rfl
  | cons f fs ih =>
    rw [List.cons_append, elementsFrom, ih, elementsFrom, List.length_cons]
    congr 1
    omega

theorem openElements_append (fs rest : List Fragment) :
    openElements (fs ++ rest) = elementsFrom fs.length (openElements fs) rest := by
  rw [openElements, elementsFrom_append, Nat.zero_add]
  rfl

/-! ## What lines put out -/

/-- As many elements are closed as there are closing tags. -/
theorem openElements_closed (fs : List Fragment) (names : List String) :
    openElements (fs ++ names.map .closeTag) = (openElements fs).drop names.length := by
  rw [openElements_append]
  generalize fs.length = place
  generalize openElements fs = opened
  induction names generalizing place opened with
  | nil => rfl
  | cons name names ih =>
    rw [List.map_cons, elementsFrom, ih, Fragment.elementsAfter, ← List.drop_one, List.drop_drop,
      List.length_cons, Nat.add_comm]

/-- Fragments that open and close nothing leave the same elements open. -/
theorem elementsFrom_of_same {fs : List Fragment}
    (hfs : ∀ f ∈ fs, ∀ place opened, f.elementsAfter place opened = opened) (place : Nat)
    (opened : List Opening) : elementsFrom place opened fs = opened := by
  induction fs generalizing place with
  | nil => rfl
  | cons f fs ih =>
    obtain ⟨hf, hfs⟩ := List.forall_mem_cons.mp hfs
    rw [elementsFrom, hf, ih hfs]

/-- What stands between the opening of a tag and its children opens and closes nothing. -/
theorem elementsAfter_of_mem_fragments {body : TagBody} {f : Fragment} (hf : f ∈ body.fragments)
    (place : Nat) (opened : List Opening) : f.elementsAfter place opened = opened := by
  cases body with
  | bare => cases hf
  | text content =>
    obtain rfl := List.mem_singleton.mp hf
    rfl
  | items entries =>
    rcases List.mem_append.mp hf with hf | hf
    · obtain ⟨i, _, hi⟩ := List.mem_flatMap.mp hf
      cases i <;> simp only [Item.fragments, List.mem_cons, List.not_mem_nil, or_false] at hi
      · rw [hi]
        rfl
      · rcases hi with rfl | rfl <;> rfl
    · obtain rfl := List.mem_singleton.mp hf
      rfl

/-- Behind its first own fragment a line has opened its element, and nothing else. -/
theorem elementsFrom_take_fragments (line : Line) (place : Nat) (opened : List Opening) {k : Nat}
    (hk : 0 < k) :
    elementsFrom place opened (line.fragments.take k) =
      line.opened.map (Opening.mk place) ++ opened := by
  obtain ⟨k, rfl⟩ := Nat.exists_eq_succ_of_ne_zero (Nat.ne_of_gt hk)
  cases line with
  | blank => rfl
  | directive tabs d =>
    rw [Line.fragments, List.take_succ_cons, List.take_nil]
    rfl
  | tag tabs number name body =>
    have hopening : (body.opening name).elementsAfter place opened = ⟨place, name⟩ :: opened := by
      cases body <;> rfl
    have hbody : ∀ f ∈ body.fragments.take k,
        ∀ place opened, f.elementsAfter place opened = opened := fun f hf =>
      elementsAfter_of_mem_fragments (List.mem_of_mem_take hf)
    rw [Line.fragments, Nesting.tagFragments_eq, List.take_succ_cons, elementsFrom, hopening,
      elementsFrom_of_same hbody]
    rfl

/-! ## Closing tags -/

/-- Of closing tags, each closes the element that is as far out as the tag is behind. -/
theorem closes_of_openElements {fs : List Fragment} {names : List String} {e : Opening}
    {inner outer : List Opening} (hopen : openElements fs = inner ++ e :: outer)
    (hname : names[inner.length]? = some e.name) (rest : List Fragment) :
    Closes (fs ++ names.map .closeTag ++ rest) e (fs.length + inner.length) := by
  have hlt : inner.length < names.length := (List.getElem?_eq_some_iff.mp hname).1
  have htake : (fs ++ names.map Fragment.closeTag ++ rest).take (fs.length + inner.length) =
      fs ++ (names.take inner.length).map Fragment.closeTag := by
    rw [List.append_assoc, List.take_length_add_append, List.take_append_of_le_length
      (by rw [List.length_map]; omega), List.map_take]
  constructor
  · rw [List.append_assoc, List.getElem?_append_right (Nat.le_add_right _ _),
      Nat.add_sub_cancel_left, List.getElem?_append_left (by rwa [List.length_map]),
      List.getElem?_map, hname]
    rfl
  · rw [htake, openElements_closed, hopen, List.length_take, Nat.min_eq_left (Nat.le_of_lt hlt),
      List.drop_left]
    rfl

/-- The elements open at a place were opened before it, the inner ones behind the outer ones. -/
def Ordered (place : Nat) (opened : List Opening) : Prop :=
  opened.Pairwise (fun e e' => e'.place < e.place) ∧ ∀ e ∈ opened, e.place < place

theorem Ordered.elementsFrom {place : Nat} {opened : List Opening} (h : Ordered place opened)
    (fs : List Fragment) :
    Ordered (place + fs.length) (TabMarkup.elementsFrom place opened fs) := by
  induction fs generalizing place opened with
  | nil => exact h
  | cons f fs ih =>
    have hsame : Ordered (place + 1) opened :=
      ⟨h.1, fun e he => Nat.lt_succ_of_lt (h.2 e he)⟩
    rw [TabMarkup.elementsFrom, List.length_cons, Nat.add_comm fs.length, ← Nat.add_assoc]
    apply ih
    rcases f.elementsAfter_cases place opened with hf | hf | ⟨name, hf⟩
    · rwa [hf]
    · rw [hf]
      exact ⟨h.1.sublist (List.tail_sublist opened),
        fun e he => hsame.2 e (List.mem_of_mem_tail he)⟩
    · rw [hf]
      exact ⟨List.pairwise_cons.mpr ⟨h.2, h.1⟩,
        List.forall_mem_cons.mpr ⟨Nat.lt_succ_self place, hsame.2⟩⟩

/-- What is not open is not opened at a later place. -/
theorem notMem_elementsFrom {place : Nat} {opened : List Opening} {e : Opening}
    (hplace : e.place < place) (he : e ∉ opened) (fs : List Fragment) :
    e ∉ elementsFrom place opened fs := by
  induction fs generalizing place opened with
  | nil => exact he
  | cons f fs ih =>
    apply ih (Nat.lt_succ_of_lt hplace)
    rcases f.elementsAfter_cases place opened with hf | hf | ⟨name, hf⟩
    · rwa [hf]
    · rw [hf]
      exact fun hmem => he (List.mem_of_mem_tail hmem)
    · rw [hf, List.mem_cons, not_or]
      refine ⟨?_, he⟩
      rintro rfl
      exact Nat.lt_irrefl place hplace

/-- Behind the place where it is closed an element is not open. -/
theorem Closes.notMem {fs : List Fragment} {e : Opening} {place : Nat} (h : Closes fs e place)
    {place' : Nat} (hlt : place < place') : e ∉ openElements (fs.take place') := by
  obtain ⟨hclose, hopen⟩ := h
  obtain ⟨hlength, hget⟩ := List.getElem?_eq_some_iff.mp hclose
  obtain ⟨outer, houter⟩ : ∃ outer, openElements (fs.take place) = e :: outer :=
    List.head?_eq_some_iff.mp hopen
  have hordered : Ordered (0 + (fs.take place).length) (openElements (fs.take place)) :=
    Ordered.elementsFrom ⟨List.Pairwise.nil, by simp⟩ _
  rw [houter, Nat.zero_add, List.length_take, Nat.min_eq_left (Nat.le_of_lt hlength)] at hordered
  obtain ⟨hinner, _⟩ := List.pairwise_cons.mp hordered.1
  have hplace : e.place < place := hordered.2 e List.mem_cons_self
  have hnotMem : e ∉ outer := fun hmem => Nat.lt_irrefl _ (hinner e hmem)
  obtain ⟨k, rfl⟩ : ∃ k, place' = place + (k + 1) := ⟨place' - (place + 1), by omega⟩
  have hsplit : fs.take (place + (k + 1)) =
      fs.take place ++ .closeTag e.name :: (fs.drop (place + 1)).take k := by
    rw [List.take_add, List.drop_eq_getElem_cons hlength, hget, List.take_succ_cons]
  rw [hsplit, openElements_append, houter, elementsFrom]
  have hlt' : e.place < (fs.take place).length + 1 := by
    rw [List.length_take]
    omega
  exact notMem_elementsFrom hlt' hnotMem _

/-- An element is closed once. -/
theorem Closes.unique {fs : List Fragment} {e : Opening} {place place' : Nat}
    (h : Closes fs e place) (h' : Closes fs e place') : place = place' := by
  rcases Nat.lt_trichotomy place place' with hlt | heq | hlt
  · exact absurd (List.mem_of_head? h'.2) (h.notMem hlt)
  · exact heq
  · exact absurd (List.mem_of_head? h.2) (h'.notMem hlt)

end TabMarkup
