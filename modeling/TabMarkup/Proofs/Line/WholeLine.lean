import TabMarkup.Proofs.Line.Simulation

/-!
# Simulations of whole lines

A newline ends a line, and so does the end of the source. A relation that the single steps keep
there as well is kept by every reader of lines, so the same lines are read from related scanners,
and the reading stops alike (`LineSimulation.readAll`). Texts are single steps here; they keep what
is kept byte by byte (`ByteSimulation.lineSimulation`).
-/

namespace TabMarkup.Scan

/-- The content of a line, as text. -/
abbrev contentText : Scan String := do
  expectRun .content
  takeScratch

/-- A relation that the single steps keep, also where a line ends. Where no byte is taken, the end
is met in both or in none. A quoted text and the content of a line count as one step each. -/
structure LineSimulation (cut : ParseError → Prop) (R : Scanner → Scanner → Prop)
    (err : ParseError → ParseError → Prop) : Prop where
  test : ∀ keep p s t, p.isAscii = true → R s t → AlikeUnless cut err (fun a u b v => a = b ∧
    R u v ∧ (a = false → u.cursor.isEof = v.cursor.isEof)) (test keep p s) (test keep p t)
  demand : ∀ keep p, p.isAscii = true → RespectsUnless cut R err (demand keep p)
  quotedRest : ∀ q, (Pattern.byte q).isInline = true → RespectsUnless cut R err (quotedRest q)
  contentText : RespectsUnless cut R err contentText
  fail : ∀ {α : Type} (fault : Fault), fault.OfEmbedding →
    RespectsUnless cut R err (fail fault : Scan α)
  clearScratch : RespectsUnless cut R err clearScratch
  takeScratch : RespectsUnless cut R err takeScratch
  line : RespectsUnless cut R err Scan.line

/-- A relation that the single steps keep byte by byte, those in texts included. -/
structure ByteSimulation (cut : ParseError → Prop) (R : Scanner → Scanner → Prop)
    (err : ParseError → ParseError → Prop) : Prop where
  test : ∀ keep p s t, R s t → AlikeUnless cut err (fun a u b v => a = b ∧ R u v ∧
    (a = false → u.cursor.isEof = v.cursor.isEof)) (test keep p s) (test keep p t)
  demand : ∀ keep p, RespectsUnless cut R err (demand keep p)
  fail : ∀ {α : Type} (fault : Fault), fault.OfEmbedding →
    RespectsUnless cut R err (fail fault : Scan α)
  clearScratch : RespectsUnless cut R err clearScratch
  takeScratch : RespectsUnless cut R err takeScratch
  line : RespectsUnless cut R err Scan.line

/-- Related errors, with as much of the line known. -/
def SameReach (err : ParseError → ParseError → Prop) (stop stop' : Line.Stop) : Prop :=
  err stop.error stop'.error ∧ stop.reached = stop'.reached

variable {cut : ParseError → Prop} {R : Scanner → Scanner → Prop}
  {err : ParseError → ParseError → Prop}

/-- What is kept byte by byte is kept by whole texts. -/
theorem ByteSimulation.lineSimulation (h : ByteSimulation cut R err) :
    LineSimulation cut R err := by
  have htest (keep : Bool) (p : Pattern) : RespectsUnless cut R err (Scan.test keep p) :=
    fun s t hst => (h.test keep p s t hst).mono fun _ _ _ _ hpost => ⟨hpost.1, hpost.2.1⟩
  exact {
    test := fun keep p s t _ => h.test keep p s t
    demand := fun keep p _ => h.demand keep p
    quotedRest := fun _ _ => respects_quotedRest (htest _ _) (h.demand _ _) h.takeScratch
    contentText := (respects_expectRun (h.demand _ _) (htest _ _)).bind fun _ => h.takeScratch
    fail := h.fail
    clearScratch := h.clearScratch
    takeScratch := h.takeScratch
    line := h.line }

namespace LineSimulation

theorem respects_test (h : LineSimulation cut R err) (keep : Bool) {p : Pattern}
    (hp : p.isAscii = true) : RespectsUnless cut R err (Scan.test keep p) :=
  fun s t hst => (h.test keep p s t hp hst).mono fun _ _ _ _ hpost => ⟨hpost.1, hpost.2.1⟩

/-- What is kept where a line ends is kept inside of it. -/
theorem simulation (h : LineSimulation cut R err) : SimulationUnless cut R err where
  test keep _ hp := h.respects_test keep (Pattern.isAscii_of_isInline hp)
  demand keep p hp := h.demand keep p (Pattern.isAscii_of_isInline hp)
  quotedRest := h.quotedRest
  fail := h.fail
  clearScratch := h.clearScratch
  takeScratch := h.takeScratch

/-! ## The end of a line -/

theorem respects_atEndOfLine (h : LineSimulation cut R err) :
    RespectsUnless cut R err Line.atEndOfLine := by
  intro s t hst
  refine (h.test false (.char '\n') s t rfl hst).bind fun a u b v _ huv => ?_
  obtain ⟨rfl, huv, heof⟩ := huv
  cases a with
  | true => exact .ok ⟨rfl, huv⟩
  | false => exact .ok ⟨heof rfl, huv⟩

theorem respects_endOfLine (h : LineSimulation cut R err) :
    RespectsUnless cut R err Line.endOfLine := by
  refine h.respects_atEndOfLine.bind fun b => ?_
  cases b
  · exact h.demand _ _ rfl
  · exact respects_pure _

theorem respects_embeddingLine (h : LineSimulation cut R err) :
    RespectsUnless cut R err Line.embeddingLine :=
  h.simulation.respects_embedding.bind fun _ => h.respects_endOfLine.bind fun _ => respects_pure _

theorem respects_literal (h : LineSimulation cut R err) :
    RespectsUnless cut R err Line.literal := by
  have hliteral : Line.literal = (do
      Scan.clearScratch
      let text ← Scan.contentText
      Line.endOfLine
      return .text text : Scan TagBody) := by
    simp only [Line.literal, Scan.contentText, bind_assoc]
  rw [hliteral]
  exact h.clearScratch.bind fun _ => h.contentText.bind fun _ =>
    h.respects_endOfLine.bind fun _ => respects_pure _

theorem respects_items (h : LineSimulation cut R err) : RespectsUnless cut R err Line.items :=
  (h.demand _ _ rfl).bind fun _ =>
    (respects_separatedBy (h.respects_test _ rfl) h.simulation.respects_item).bind fun _ =>
    h.respects_endOfLine.bind fun _ => respects_pure _

/-! ## Lines -/

/-- Where steps end alike, they stop with as much of the line known. -/
theorem alike_reaching_sameReach {α : Type} {reached : Line.Reached} {m : Scan α} {s t : Scanner}
    {post : α → Scanner → α → Scanner → Prop} (hm : AlikeUnless cut err post (m s) (m t)) :
    AlikeUnless (fun stop => cut stop.error) (SameReach err) post (Line.reaching reached m s)
      (Line.reaching reached m t) :=
  alike_reaching (fun _ _ he => ⟨he, rfl⟩) hm

theorem respects_reaching {α : Type} {reached : Line.Reached} {m : Scan α}
    (hm : RespectsUnless cut R err m) :
    RespectsUnless (fun stop => cut stop.error) R (SameReach err) (Line.reaching reached m) :=
  fun s t hst => alike_reaching_sameReach (hm s t hst)

theorem respects_tagBody (h : LineSimulation cut R err) (tabs number : Nat) (name : String) :
    RespectsUnless (fun stop => cut stop.error) R (SameReach err)
      (Line.tagBody tabs number name) := by
  refine (respects_reaching h.respects_atEndOfLine).bind fun b => ?_
  cases b
  · refine (respects_reaching (h.respects_test _ rfl)).bind fun bar => respects_reaching ?_
    cases bar
    · exact h.respects_items
    · exact h.respects_literal
  · exact respects_pure _

theorem respects_content (h : LineSimulation cut R err) (tabs : Nat) :
    RespectsUnless (fun stop => cut stop.error) R (SameReach err) (Line.content tabs) := by
  refine (respects_reaching (h.respects_test _ rfl)).bind fun brace => ?_
  cases brace
  · exact (respects_reaching h.simulation.respects_tagName).bind fun name =>
      (respects_reaching h.line).bind fun number =>
      (h.respects_tagBody tabs number name).bind fun _ => respects_pure _
  · exact (respects_reaching h.respects_embeddingLine).bind fun _ => respects_pure _

/-- Reading a line keeps the relation. -/
theorem respects_read (h : LineSimulation cut R err) :
    RespectsUnless (fun stop => cut stop.error) R (SameReach err) Line.read := by
  refine (respects_reaching (respects_countWhile (h.respects_test _ rfl))).bind fun tabs => ?_
  intro s t hst
  refine (alike_reaching_sameReach (h.test false (.char '\n') s t rfl hst)).bind
    fun a u b v _ huv => ?_
  obtain ⟨rfl, huv, heof⟩ := huv
  cases a with
  | true => exact .ok ⟨rfl, huv⟩
  | false =>
    have hEof : AlikeUnless (fun stop => cut stop.error) (SameReach err)
        (fun a u b v => a = b ∧ R u v) (Line.reaching .margin isEof u)
        (Line.reaching .margin isEof v) := .ok ⟨heof rfl, huv⟩
    refine hEof.bind fun a x b y _ hxy => ?_
    obtain ⟨rfl, hxy⟩ := hxy
    cases a with
    | true => exact .ok ⟨rfl, hxy⟩
    | false => exact ((h.respects_content tabs).bind fun _ => respects_pure _) x y hxy

/-- From related scanners the same lines are read, and the reading stops alike, unless the first is
cut short. -/
theorem readAll (h : LineSimulation cut R err) {s t : Scanner} (hst : R s t) :
    (∃ stop, (Line.readAll s).stop? = some stop ∧ cut stop.error) ∨
      ((Line.readAll s).lines = (Line.readAll t).lines ∧
        Option.Rel (SameReach err) (Line.readAll s).stop? (Line.readAll t).stop?) := by
  induction hn : s.unread using Nat.strongRecOn generalizing s t with
  | ind n ih =>
    have hread := h.respects_read s t hst
    generalize hs : Line.read s = r, ht : Line.read t = r' at hread
    cases hread with
    | cut hcut => exact Or.inl ⟨_, by rw [Line.readAll_of_error hs], hcut⟩
    | error herr =>
      rw [Line.readAll_of_error hs, Line.readAll_of_error ht]
      exact Or.inr ⟨rfl, .some herr⟩
    | @ok a b u v hpost =>
      obtain ⟨rfl, huv⟩ := hpost
      cases a with
      | none =>
        rw [Line.readAll_of_none hs, Line.readAll_of_none ht]
        exact Or.inr ⟨rfl, .none⟩
      | some line =>
        have hless : u.unread < n := hn ▸ Line.read_unread_lt hs
        rw [Line.readAll_of_some hs, Line.readAll_of_some ht]
        rcases ih u.unread hless huv rfl with hcut | ⟨hlines, hstop⟩
        · exact Or.inl hcut
        · exact Or.inr ⟨congrArg (line :: ·) hlines, hstop⟩

end LineSimulation

end TabMarkup.Scan
