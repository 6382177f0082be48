import TabMarkup.Line.Read
import TabMarkup.Proofs.Simulation

/-!
# Simulations of line readers

Everything that is read inside a line is put together from single steps, so it respects every
simulation: embeddings, the items of a tag, and its name.
-/

namespace TabMarkup.Scan

/-- Where steps end alike, they do however much of the line is known, if the errors with that are
still related. -/
theorem alike_reaching {α : Type} {cut : ParseError → Prop} {err : ParseError → ParseError → Prop}
    {err' : Line.Stop → Line.Stop → Prop} {reached reached' : Line.Reached} {m m' : Scan α}
    {s t : Scanner} {post : α → Scanner → α → Scanner → Prop}
    (herr : ∀ e e', err e e' → err' ⟨e, reached⟩ ⟨e', reached'⟩)
    (hm : AlikeUnless cut err post (m s) (m' t)) :
    AlikeUnless (fun stop => cut stop.error) err' post (Line.reaching reached m s)
      (Line.reaching reached' m' t) := by
  unfold Line.reaching
  generalize m s = r, m' t = r' at hm
  cases hm with
  | ok h => exact .ok h
  | error h => exact .error (herr _ _ h)
  | cut h => exact .cut h

/-- The same where neither is cut short. -/
theorem Alike.reaching {α : Type} {err : ParseError → ParseError → Prop}
    {err' : Line.Stop → Line.Stop → Prop} {reached reached' : Line.Reached} {m m' : Scan α}
    {s t : Scanner} {post : α → Scanner → α → Scanner → Prop}
    (herr : ∀ e e', err e e' → err' ⟨e, reached⟩ ⟨e', reached'⟩)
    (hm : Alike err post (m s) (m' t)) :
    Alike err' post (Line.reaching reached m s) (Line.reaching reached' m' t) := by
  have hreaching := alike_reaching herr hm
  exact hreaching

namespace SimulationUnless

variable {cut : ParseError → Prop} {R : Scanner → Scanner → Prop}
  {err : ParseError → ParseError → Prop}

theorem respects_skip (h : SimulationUnless cut R err) {p : Pattern} (hp : p.isInline = true) :
    RespectsUnless cut R err (skip p) :=
  h.test false p hp

theorem respects_accept (h : SimulationUnless cut R err) {p : Pattern} (hp : p.isInline = true) :
    RespectsUnless cut R err (accept p) :=
  h.test true p hp

theorem respects_expect (h : SimulationUnless cut R err) {p : Pattern} (hp : p.isInline = true) :
    RespectsUnless cut R err (expect p) :=
  h.demand true p hp

theorem respects_require (h : SimulationUnless cut R err) {p : Pattern} (hp : p.isInline = true) :
    RespectsUnless cut R err (require p) :=
  h.demand false p hp

theorem respects_acceptWhile (h : SimulationUnless cut R err) {p : Pattern}
    (hp : p.isInline = true) :
    RespectsUnless cut R err (acceptWhile p) :=
  respects_countWhile (h.test true p hp)

theorem respects_expectRun (h : SimulationUnless cut R err) {p : Pattern}
    (hp : p.isInline = true) :
    RespectsUnless cut R err (expectRun p) :=
  Scan.respects_expectRun (h.demand true p hp) (h.test true p hp)

/-- A mark inside a line is no newline. -/
theorem respects_mark (h : SimulationUnless cut R err) {c : Char}
    (hc : (Pattern.char c).isInline = true) :
    RespectsUnless cut R err (Directive.mark c) := by
  refine (h.respects_skip hc).bind fun b => ?_
  cases b
  · exact h.fail _ .malformed
  · exact respects_pure _

theorem respects_word (h : SimulationUnless cut R err) :
    RespectsUnless cut R err Directive.word := by
  refine (h.respects_acceptWhile rfl).bind fun n => ?_
  split
  · exact h.fail _ .malformed
  · exact respects_pure _

theorem respects_identifier (h : SimulationUnless cut R err) :
    RespectsUnless cut R err Directive.identifier :=
  h.clearScratch.bind fun _ => h.respects_word.bind fun _ => h.takeScratch

theorem respects_close (h : SimulationUnless cut R err) (d : Directive) (missing : Nat) :
    RespectsUnless cut R err (Directive.close d missing) := by
  induction missing with
  | zero => exact respects_pure d
  | succ missing ih =>
    refine (h.respects_skip rfl).bind fun b => ?_
    cases b
    · exact h.fail _ (.unclosed _)
    · exact ih

theorem respects_boundEmbedding (h : SimulationUnless cut R err) :
    RespectsUnless cut R err Directive.boundEmbedding := by
  refine h.respects_identifier.bind fun name => (h.respects_skip rfl).bind fun b => ?_
  cases b
  · exact (h.respects_mark rfl).bind fun _ => (h.respects_mark rfl).bind fun _ =>
      h.respects_identifier.bind fun _ => (h.respects_mark rfl).bind fun _ =>
      (h.respects_mark rfl).bind fun _ => h.respects_close _ _
  · exact h.respects_close _ _

theorem respects_staticEmbedding (h : SimulationUnless cut R err) :
    RespectsUnless cut R err Directive.staticEmbedding := by
  refine h.clearScratch.bind fun _ => (h.respects_accept rfl).bind fun _ =>
    (respects_separatedBy (h.test _ _ rfl) h.respects_word).bind fun _ =>
    h.takeScratch.bind fun path => (h.respects_mark rfl).bind fun _ =>
    (h.respects_mark rfl).bind fun _ => (h.respects_skip rfl).bind fun b => ?_
  cases b
  · exact h.respects_identifier.bind fun _ => (h.respects_mark rfl).bind fun _ =>
      (h.respects_mark rfl).bind fun _ => h.respects_close _ _
  · exact h.respects_identifier.bind fun _ => h.respects_close _ _

theorem respects_embedding (h : SimulationUnless cut R err) :
    RespectsUnless cut R err Directive.embedding := by
  refine (h.respects_require rfl).bind fun _ => (h.respects_skip rfl).bind fun b => ?_
  cases b
  · exact h.respects_staticEmbedding
  · exact h.respects_boundEmbedding

/-- Whichever quote a value begins with, no quote is a newline. -/
theorem quote_eq_ok {s t : Scanner} {q : UInt8} (hq : Line.quote s = .ok q t) :
    q = 0x22 ∨ q = 0x27 := by
  obtain ⟨double, u, _, hq⟩ := bind_eq_ok.mp hq
  cases double
  · obtain ⟨_, v, _, hq⟩ := bind_eq_ok.mp hq
    cases hq
    exact Or.inr rfl
  · cases hq
    exact Or.inl rfl

theorem respects_quote (h : SimulationUnless cut R err) : RespectsUnless cut R err Line.quote := by
  refine (h.respects_accept rfl).bind fun b => ?_
  cases b
  · exact (h.respects_expect rfl).bind fun _ => respects_pure _
  · exact respects_pure _

theorem respects_attr (h : SimulationUnless cut R err) : RespectsUnless cut R err Line.attr := by
  refine h.clearScratch.bind fun _ => (h.respects_expectRun rfl).bind fun _ =>
    (h.respects_expect rfl).bind fun _ => ?_
  intro s t hst
  refine (h.respects_quote s t hst).bind fun q u q' v hq huv => ?_
  obtain ⟨rfl, huv⟩ := huv
  have hbyte : (Pattern.byte q).isInline = true := by
    rcases quote_eq_ok hq with rfl | rfl <;> rfl
  exact h.quotedRest q hbyte u v huv

theorem respects_item (h : SimulationUnless cut R err) : RespectsUnless cut R err Line.item := by
  refine (h.respects_skip rfl).bind fun b => ?_
  cases b
  · exact h.respects_attr.bind fun _ => respects_pure _
  · exact h.respects_embedding.bind fun _ => respects_pure _

theorem respects_tagName (h : SimulationUnless cut R err) : RespectsUnless cut R err Line.tagName :=
  h.clearScratch.bind fun _ => (h.respects_expectRun rfl).bind fun _ => h.takeScratch

end SimulationUnless

end TabMarkup.Scan
