import TabMarkup.Proofs.Line.Simulation

/-!
# Simulations up to the end of a line

Two lines may have different numbers and different tabs, and may end differently. A relation of
cursors that no byte inside a line breaks, and by which both lines end or none does, is kept by all
that is read behind the tabs. What is read is then the same but for its place, and where the reading
stops, as much is known of both lines (`EndSimulation.content`).
-/

namespace TabMarkup

namespace Line

/-- The same line, with `tabs` tabs and the number `number` in one place and with others in
another. -/
inductive Counterpart (tabs number tabs' number' : Nat) : Line → Line → Prop where
  | blank : Counterpart tabs number tabs' number' .blank .blank
  | directive (d : Directive) :
      Counterpart tabs number tabs' number' (.directive tabs d) (.directive tabs' d)
  | tag (name : String) (body : TagBody) :
      Counterpart tabs number tabs' number' (.tag tabs number name body)
        (.tag tabs' number' name body)

/-- In the same place it is the same line. -/
theorem Counterpart.eq {tabs number : Nat} {line line' : Line}
    (h : Counterpart tabs number tabs number line line') : line = line' := by
  cases h <;> rfl

/-- As much known of a line as of the same line in another place. -/
inductive Reached.Counterpart (tabs number tabs' number' : Nat) : Reached → Reached → Prop where
  | indented : Counterpart tabs number tabs' number' (.indented tabs) (.indented tabs')
  | opened (name : String) :
      Counterpart tabs number tabs' number' (.opened tabs number name) (.opened tabs' number' name)

/-- Related errors, with as much known of the line. -/
def StopsAlike (err : ParseError → ParseError → Prop) (tabs number tabs' number' : Nat)
    (stop stop' : Stop) : Prop :=
  err stop.error stop'.error ∧
    Reached.Counterpart tabs number tabs' number' stop.reached stop'.reached

end Line

open Scan

/-- Two scanners with related cursors and the same token. -/
def SameToken (L : Cursor → Cursor → Prop) (s t : Scanner) : Prop :=
  L s.cursor t.cursor ∧ s.scratch = t.scratch

/-- A relation between cursors inside lines with the numbers `number` and `number'`. The single
steps keep it, whatever the tokens are, and keep tokens the same; the end of the line is met by both
or by none. -/
structure EndSimulation (number number' : Nat) (L : Cursor → Cursor → Prop)
    (err : ParseError → ParseError → Prop) : Prop where
  line_eq : ∀ c d, L c d → c.line = number ∧ d.line = number'
  fault : ∀ fault : Fault, fault.OfEmbedding → err ⟨fault, number⟩ ⟨fault, number'⟩
  test : ∀ keep p s t, p.admits 10 = false → L s.cursor t.cursor →
    Alike err (fun a u b v => a = b ∧ L u.cursor v.cursor ∧
      (s.scratch = t.scratch → u.scratch = v.scratch)) (test keep p s) (test keep p t)
  demand : ∀ keep p s t, p.admits 10 = false → L s.cursor t.cursor →
    Alike err (fun _ u _ v => L u.cursor v.cursor ∧
      (s.scratch = t.scratch → u.scratch = v.scratch)) (demand keep p s) (demand keep p t)
  atEndOfLine : ∀ s t, L s.cursor t.cursor →
    Alike err (fun a u b v => a = b ∧ (a = false → L u.cursor v.cursor ∧
      (s.scratch = t.scratch → u.scratch = v.scratch))) (Line.atEndOfLine s) (Line.atEndOfLine t)
  endOfLine : ∀ s t, L s.cursor t.cursor →
    Alike err (fun _ _ _ _ => True) (Line.endOfLine s) (Line.endOfLine t)

namespace EndSimulation

variable {number number' : Nat} {L : Cursor → Cursor → Prop}
  {err : ParseError → ParseError → Prop} {s t : Scanner}

/-- With the same token, trying a byte inside the lines comes to the same. -/
theorem respects_test (h : EndSimulation number number' L err) (keep : Bool) {p : Pattern}
    (hp : p.admits 10 = false) : Respects (SameToken L) err (Scan.test keep p) := by
  rintro s t ⟨hst, hscratch⟩
  exact (h.test keep p s t hp hst).mono fun _ _ _ _ hpost =>
    ⟨hpost.1, hpost.2.1, hpost.2.2 hscratch⟩

theorem respects_demand (h : EndSimulation number number' L err) (keep : Bool) {p : Pattern}
    (hp : p.admits 10 = false) : Respects (SameToken L) err (Scan.demand keep p) := by
  rintro s t ⟨hst, hscratch⟩
  exact (h.demand keep p s t hp hst).mono fun _ _ _ _ hpost => ⟨rfl, hpost.1, hpost.2 hscratch⟩

theorem respects_takeScratch : Respects (SameToken L) err takeScratch := by
  rintro s t ⟨hst, hscratch⟩
  exact .ok ⟨by rw [hscratch], hst, rfl⟩

/-- With the same token, what is read inside the lines is the same. -/
theorem simulation (h : EndSimulation number number' L err) : Simulation (SameToken L) err where
  test keep _ hp := h.respects_test keep (Pattern.admits_newline_of_isInline hp)
  demand keep _ hp := h.respects_demand keep (Pattern.admits_newline_of_isInline hp)
  quotedRest _ hq := respects_quotedRest (h.respects_test true rfl)
    (h.respects_demand true (Pattern.admits_newline_of_isInline hq)) respects_takeScratch
  fail fault hfault := by
    rintro s t ⟨hst, _⟩
    obtain ⟨hnumber, hnumber'⟩ := h.line_eq _ _ hst
    refine .error ?_
    rw [hnumber, hnumber']
    exact h.fault fault hfault
  clearScratch := by
    rintro s t ⟨hst, _⟩
    exact .ok ⟨rfl, hst, rfl⟩
  takeScratch := respects_takeScratch

/-! ## Parts of a line -/

/-- The rest of an embedding, behind its first brace. The first name drops the token. -/
theorem embedding (h : EndSimulation number number' L err) (hst : L s.cursor t.cursor) :
    Alike err (fun d u d' v => d = d' ∧ L u.cursor v.cursor) (Directive.embedding s)
      (Directive.embedding t) := by
  refine (h.demand false (.char '\x7b') s t rfl hst).bind fun _ u _ v _ huv => ?_
  refine (h.test false (.char '$') u v rfl huv.1).bind fun a x a' y _ hxy => ?_
  obtain ⟨rfl, hxy, _⟩ := hxy
  have hcleared : SameToken L { x with scratch := #[] } { y with scratch := #[] } := ⟨hxy, rfl⟩
  cases a with
  | false =>
    have hstatic := h.simulation.respects_staticEmbedding _ _ hcleared
    exact hstatic.mono fun _ _ _ _ hpost => ⟨hpost.1, hpost.2.1⟩
  | true =>
    have hbound := h.simulation.respects_boundEmbedding _ _ hcleared
    exact hbound.mono fun _ _ _ _ hpost => ⟨hpost.1, hpost.2.1⟩

/-- Where the line must end at last, and something is then the answer. -/
theorem endOfLine_pure {α : Type} (h : EndSimulation number number' L err)
    (hst : L s.cursor t.cursor) (a : α) :
    Alike err (fun a _ a' _ => a = a') ((do Line.endOfLine; return a : Scan α) s)
      ((do Line.endOfLine; return a : Scan α) t) :=
  (h.endOfLine s t hst).bind fun _ _ _ _ _ _ => .ok rfl

theorem embeddingLine (h : EndSimulation number number' L err) (hst : L s.cursor t.cursor) :
    Alike err (fun d _ d' _ => d = d') (Line.embeddingLine s) (Line.embeddingLine t) := by
  refine (h.embedding hst).bind fun d u d' v _ huv => ?_
  obtain ⟨rfl, huv⟩ := huv
  exact h.endOfLine_pure huv d

theorem literal (h : EndSimulation number number' L err) (hst : SameToken L s t) :
    Alike err (fun body _ body' _ => body = body') (Line.literal s) (Line.literal t) := by
  have hcontent : Respects (SameToken L) err (expectRun .content) :=
    respects_expectRun (h.respects_demand true rfl) (h.respects_test true rfl)
  refine (h.simulation.clearScratch s t hst).bind fun _ u _ v _ huv => ?_
  refine (hcontent u v huv.2).bind fun _ x _ y _ hxy => ?_
  refine (h.simulation.takeScratch x y hxy.2).bind fun content x content' y _ hxy => ?_
  obtain ⟨rfl, hxy, _⟩ := hxy
  exact h.endOfLine_pure hxy (TagBody.text content)

theorem items (h : EndSimulation number number' L err) (hst : SameToken L s t) :
    Alike err (fun body _ body' _ => body = body') (Line.items s) (Line.items t) := by
  have hlist : Respects (SameToken L) err
      (separatedBy false (.char ' ') Line.item Line.forward_item) :=
    respects_separatedBy (h.simulation.test false _ rfl) h.simulation.respects_item
  refine (h.simulation.respects_require rfl s t hst).bind fun _ u _ v _ huv => ?_
  refine (hlist u v huv.2).bind fun entries x entries' y _ hxy => ?_
  obtain ⟨rfl, hxy, _⟩ := hxy
  exact h.endOfLine_pure hxy (TagBody.items entries)

/-! ## Behind the tabs -/

/-- Where steps end alike while only the tabs are known, so do the lines. -/
theorem alike_indented {α : Type} {m m' : Scan α} {post : α → Scanner → α → Scanner → Prop}
    (tabs tabs' : Nat) (hm : Alike err post (m s) (m' t)) :
    Alike (Line.StopsAlike err tabs number tabs' number') post
      (Line.reaching (.indented tabs) m s) (Line.reaching (.indented tabs') m' t) :=
  Alike.reaching (fun _ _ he => ⟨he, .indented⟩) hm

/-- What follows a tag name. -/
theorem tagBody (h : EndSimulation number number' L err) (hst : SameToken L s t)
    (tabs tabs' : Nat) (name : String) :
    Alike (Line.StopsAlike err tabs number tabs' number') (fun body _ body' _ => body = body')
      (Line.tagBody tabs number name s) (Line.tagBody tabs' number' name t) := by
  obtain ⟨hst, hscratch⟩ := hst
  refine (alike_indented tabs tabs' (h.atEndOfLine s t hst)).bind fun a u a' v _ huv => ?_
  obtain ⟨rfl, huv⟩ := huv
  cases a with
  | true => exact .ok rfl
  | false =>
    obtain ⟨huv, hkeep⟩ := huv rfl
    have hbar := h.test false (.char '|') u v rfl huv
    refine (alike_indented tabs tabs' hbar).bind fun bar x bar' y _ hxy => ?_
    obtain ⟨rfl, hxy, hkeep'⟩ := hxy
    have hxy : SameToken L x y := ⟨hxy, hkeep' (hkeep hscratch)⟩
    apply Alike.reaching fun _ _ he => ⟨he, .opened name⟩
    cases bar with
    | true => exact h.literal hxy
    | false => exact h.items hxy

/-- A line behind its tabs, however many these are. Before its first byte the scanners may be
related in a way of their own. -/
theorem content (h : EndSimulation number number' L err) {start : Scanner → Scanner → Prop}
    (tabs tabs' : Nat)
    (hbrace : Alike err (fun a u b v => a = b ∧ (a = true → L u.cursor v.cursor) ∧
      (a = false → start u v)) (skip (.char '\x7b') s) (skip (.char '\x7b') t))
    (hname : ∀ u v, start u v → Alike err (fun name x name' y => name = name' ∧ SameToken L x y)
      (Line.tagName u) (Line.tagName v)) :
    Alike (Line.StopsAlike err tabs number tabs' number')
      (fun line _ line' _ => Line.Counterpart tabs number tabs' number' line line')
      (Line.content tabs s) (Line.content tabs' t) := by
  refine (alike_indented tabs tabs' hbrace).bind fun a u a' v _ huv => ?_
  obtain ⟨rfl, hinside, hstart⟩ := huv
  cases a with
  | true =>
    have hline := h.embeddingLine (hinside rfl)
    refine (alike_indented tabs tabs' hline).bind fun d _ d' _ _ hd => ?_
    obtain rfl := hd
    exact .ok (.directive d)
  | false =>
    refine (alike_indented tabs tabs' (hname u v (hstart rfl))).bind fun name x name' y _ hxy => ?_
    obtain ⟨rfl, hxy⟩ := hxy
    obtain ⟨hnumber, hnumber'⟩ := h.line_eq _ _ hxy.1
    have hline : Alike err (fun k u k' v => k = number ∧ k' = number' ∧ SameToken L u v)
        (Scan.line x) (Scan.line y) := .ok ⟨hnumber, hnumber', hxy⟩
    refine (alike_indented tabs tabs' hline).bind fun k u k' v _ huv => ?_
    obtain ⟨rfl, rfl, huv⟩ := huv
    refine (h.tagBody huv tabs tabs' name).bind fun body _ body' _ _ hbody => ?_
    obtain rfl := hbody
    exact .ok (.tag name body)

end EndSimulation

end TabMarkup
