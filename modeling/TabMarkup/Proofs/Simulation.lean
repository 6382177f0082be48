import TabMarkup.Proofs.Scanner

/-!
# Simulations of scanners

Two scanners can be compared step by step. A simulation is a relation between scanners that the
single steps inside a line keep; sequences, runs and lists of such steps then keep it as well
(`RespectsUnless.bind`, `respects_countWhile`, `respects_separatedBy`). The first of two runs may
also be cut short: what the second one does is then left open. Bytes that are not ASCII stand only
in texts, which are taken whole, so two texts may be related that are not taken byte by byte alike.
-/

namespace TabMarkup

/-- The fault is in what a source says, not in the reading of it. -/
def Fault.OfText (fault : Fault) : Prop :=
  ∀ reason, fault ≠ .unreadable reason

/-- The fault is that of an embedding. Any other one comes up only where a byte is demanded. -/
inductive Fault.OfEmbedding : Fault → Prop where
  | malformed : OfEmbedding .malformedEmbedding
  | unclosed (embedding : String) : OfEmbedding (.unclosedEmbedding embedding)

theorem Fault.OfEmbedding.ofText {fault : Fault} (h : fault.OfEmbedding) : fault.OfText := by
  cases h <;> nofun

/-- Whether the pattern admits none but ASCII bytes. The bytes of texts are asked for by the other
patterns. -/
def Pattern.isAscii : Pattern → Bool
  | .byte b => b < 0x80
  | .content | .quoted _ => false
  | .digit | .letter | .symbol | .identifier | .attributeName => true

/-- Whether the pattern admits none but ASCII bytes inside a line. -/
def Pattern.isInline (p : Pattern) : Bool :=
  p.isAscii && !p.admits 10

theorem Pattern.isAscii_of_isInline {p : Pattern} (hp : p.isInline = true) : p.isAscii = true :=
  (Bool.and_eq_true_iff.mp hp).1

theorem Pattern.admits_newline_of_isInline {p : Pattern} (hp : p.isInline = true) :
    p.admits 10 = false := by
  simpa using (Bool.and_eq_true_iff.mp hp).2

namespace Scan

/-- Two runs end alike unless the first is cut short: both succeed, and `post` relates what they
end with, or both stop, and `err` relates their errors, or the first stops with an error of which
`cut` holds. -/
inductive AlikeUnless {ε α : Type} (cut : ε → Prop) (err : ε → ε → Prop)
    (post : α → Scanner → α → Scanner → Prop) :
    EStateM.Result ε Scanner α → EStateM.Result ε Scanner α → Prop where
  | ok {a b : α} {s t : Scanner} (h : post a s b t) : AlikeUnless cut err post (.ok a s) (.ok b t)
  | error {e f : ε} {s t : Scanner} (h : err e f) :
      AlikeUnless cut err post (.error e s) (.error f t)
  | cut {e : ε} {s : Scanner} {r : EStateM.Result ε Scanner α} (h : cut e) :
      AlikeUnless cut err post (.error e s) r

/-- Two runs end alike: both succeed, and `post` relates what they end with, or both stop, and
`err` relates their errors. -/
abbrev Alike {ε α : Type} (err : ε → ε → Prop) (post : α → Scanner → α → Scanner → Prop) :
    EStateM.Result ε Scanner α → EStateM.Result ε Scanner α → Prop :=
  AlikeUnless (fun _ => False) err post

/-- Runs that end alike still do when less is asked of what they end with. -/
theorem AlikeUnless.mono {ε α : Type} {cut : ε → Prop} {err : ε → ε → Prop}
    {post post' : α → Scanner → α → Scanner → Prop} {r r' : EStateM.Result ε Scanner α}
    (h : AlikeUnless cut err post r r') (hpost : ∀ a s b t, post a s b t → post' a s b t) :
    AlikeUnless cut err post' r r' := by
  cases h with
  | ok h => exact .ok (hpost _ _ _ _ h)
  | error h => exact .error h
  | cut h => exact .cut h

/-- Runs that end alike still do when less is asked of their errors. -/
theorem AlikeUnless.mono_error {ε α : Type} {cut : ε → Prop} {err err' : ε → ε → Prop}
    {post : α → Scanner → α → Scanner → Prop} {r r' : EStateM.Result ε Scanner α}
    (h : AlikeUnless cut err post r r') (herr : ∀ e f, err e f → err' e f) :
    AlikeUnless cut err' post r r' := by
  cases h with
  | ok h => exact .ok h
  | error h => exact .error (herr _ _ h)
  | cut h => exact .cut h

/-- Sequences end alike where their parts do. -/
theorem AlikeUnless.bind {ε α β : Type} {cut : ε → Prop} {err : ε → ε → Prop}
    {mid : α → Scanner → α → Scanner → Prop} {post : β → Scanner → β → Scanner → Prop}
    {m m' : EStateM ε Scanner α} {f f' : α → EStateM ε Scanner β} {s t : Scanner}
    (hm : AlikeUnless cut err mid (m s) (m' t))
    (hf : ∀ a u b v, m s = .ok a u → mid a u b v → AlikeUnless cut err post (f a u) (f' b v)) :
    AlikeUnless cut err post ((m >>= f) s) ((m' >>= f') t) := by
  generalize hs : m s = r, ht : m' t = r' at hm
  cases hm with
  | ok hmid =>
    rw [bind_of_ok hs, bind_of_ok ht]
    exact hf _ _ _ _ hs hmid
  | error herr =>
    rw [bind_of_error hs, bind_of_error ht]
    exact .error herr
  | cut hcut =>
    rw [bind_of_error hs]
    exact .cut hcut

/-! ## Before the same byte -/

section SameByte

variable {b : UInt8} {u v : List UInt8} {failure? failure?' : Option String} {line line' : Nat}
  {owed owed' : Bool} {s t : Scanner} {cut : ParseError → Prop}
  {err : ParseError → ParseError → Prop}

/-- A byte that comes next in both is taken in both or left in both. -/
theorem alike_test_cons {post : Bool → Scanner → Bool → Scanner → Prop} (keep : Bool) {p : Pattern}
    (hs : s.cursor.At { bytes := b :: u, failure? } line owed)
    (ht : t.cursor.At { bytes := b :: v, failure? := failure?' } line' owed')
    (htaken : p.admits b = true → ∀ x y : Scanner,
      x.cursor.At { bytes := u, failure? } (if owed then line + 1 else line) (b == 10) →
      y.cursor.At { bytes := v, failure? := failure?' } (if owed' then line' + 1 else line')
        (b == 10) →
      (s.scratch = t.scratch → x.scratch = y.scratch) → post true x true y)
    (hleft : p.admits b = false → ∀ x y : Scanner,
      x.cursor.At { bytes := b :: u, failure? } line owed →
      y.cursor.At { bytes := b :: v, failure? := failure?' } line' owed' →
      (s.scratch = t.scratch → x.scratch = y.scratch) → x.cursor.isEof = y.cursor.isEof →
      post false x false y) :
    AlikeUnless cut err post (test keep p s) (test keep p t) := by
  cases hb : p.admits b with
  | true =>
    obtain ⟨x, hsx, hx, hscratchx⟩ := test_admitted keep hs hb
    obtain ⟨y, hty, hy, hscratchy⟩ := test_admitted keep ht hb
    rw [hsx, hty]
    exact .ok (htaken hb x y hx hy fun hscratch => by rw [hscratchx, hscratchy, hscratch])
  | false =>
    obtain ⟨x, hsx, hx, hscratchx, hxeof⟩ := test_rejected keep hs hb
    obtain ⟨y, hty, hy, hscratchy, hyeof⟩ := test_rejected keep ht hb
    rw [hsx, hty]
    exact .ok (hleft hb x y hx hy (fun hscratch => by rw [hscratchx, hscratchy, hscratch])
      (hxeof.trans hyeof.symm))

/-- A byte that comes next in both is taken in both or reported in both. -/
theorem alike_demand_cons {post : Unit → Scanner → Unit → Scanner → Prop} (keep : Bool)
    {p : Pattern} (hs : s.cursor.At { bytes := b :: u, failure? } line owed)
    (ht : t.cursor.At { bytes := b :: v, failure? := failure?' } line' owed')
    (htaken : p.admits b = true → ∀ x y : Scanner,
      x.cursor.At { bytes := u, failure? } (if owed then line + 1 else line) (b == 10) →
      y.cursor.At { bytes := v, failure? := failure?' } (if owed' then line' + 1 else line')
        (b == 10) →
      (s.scratch = t.scratch → x.scratch = y.scratch) → post () x () y)
    (herr : err ⟨.unexpectedByte p b, if owed then line + 1 else line⟩
      ⟨.unexpectedByte p b, if owed' then line' + 1 else line'⟩) :
    AlikeUnless cut err post (demand keep p s) (demand keep p t) := by
  cases hb : p.admits b with
  | true =>
    obtain ⟨x, hsx, hx, hscratchx⟩ := demand_admitted keep hs hb
    obtain ⟨y, hty, hy, hscratchy⟩ := demand_admitted keep ht hb
    rw [hsx, hty]
    exact .ok (htaken hb x y hx hy fun hscratch => by rw [hscratchx, hscratchy, hscratch])
  | false =>
    obtain ⟨x, hsx⟩ := demand_rejected keep hs hb
    obtain ⟨y, hty⟩ := demand_rejected keep ht hb
    rw [hsx, hty]
    exact .error herr

end SameByte

/-! ## Sequences -/

/-- Steps that take related scanners to related scanners, with equal results, unless they are cut
short. -/
def RespectsUnless {ε α : Type} (cut : ε → Prop) (R : Scanner → Scanner → Prop)
    (err : ε → ε → Prop) (m : EStateM ε Scanner α) : Prop :=
  ∀ s t, R s t → AlikeUnless cut err (fun a u b v => a = b ∧ R u v) (m s) (m t)

/-- Steps that take related scanners to related scanners, with equal results. -/
abbrev Respects {ε α : Type} (R : Scanner → Scanner → Prop) (err : ε → ε → Prop)
    (m : EStateM ε Scanner α) : Prop :=
  RespectsUnless (fun _ => False) R err m

variable {R : Scanner → Scanner → Prop}

/-- A sequence respects what its parts respect. -/
theorem RespectsUnless.bind {ε α β : Type} {cut : ε → Prop} {err : ε → ε → Prop}
    {m : EStateM ε Scanner α} {f : α → EStateM ε Scanner β} (hm : RespectsUnless cut R err m)
    (hf : ∀ a, RespectsUnless cut R err (f a)) : RespectsUnless cut R err (m >>= f) := by
  intro s t hst
  refine (hm s t hst).bind fun a u b v _ huv => ?_
  obtain ⟨rfl, huv⟩ := huv
  exact hf a u v huv

theorem respects_pure {ε α : Type} {cut : ε → Prop} {err : ε → ε → Prop} (a : α) :
    RespectsUnless cut R err (pure a : EStateM ε Scanner α) :=
  fun _ _ hst => .ok ⟨rfl, hst⟩

/-- The rest of a quoted text and the quote that ends it, with what was kept before. -/
abbrev quotedRest (q : UInt8) : Scan String := do
  let _ ← acceptWhile (.quoted q)
  expect (.byte q)
  takeScratch

/-- A relation that the single steps inside a line keep. Patterns that admit a newline are left
out, since a newline ends the line, and a quoted text counts as one step. -/
structure SimulationUnless (cut : ParseError → Prop) (R : Scanner → Scanner → Prop)
    (err : ParseError → ParseError → Prop) : Prop where
  test : ∀ keep p, p.isInline = true → RespectsUnless cut R err (test keep p)
  demand : ∀ keep p, p.isInline = true → RespectsUnless cut R err (demand keep p)
  quotedRest : ∀ q, (Pattern.byte q).isInline = true → RespectsUnless cut R err (quotedRest q)
  fail : ∀ {α : Type} (fault : Fault), fault.OfEmbedding →
    RespectsUnless cut R err (fail fault : Scan α)
  clearScratch : RespectsUnless cut R err clearScratch
  takeScratch : RespectsUnless cut R err takeScratch

/-- A relation that the single steps inside a line keep, whatever comes of them. -/
abbrev Simulation (R : Scanner → Scanner → Prop) (err : ParseError → ParseError → Prop) : Prop :=
  SimulationUnless (fun _ => False) R err

/-! ## Runs, texts and lists -/

variable {cut : ParseError → Prop} {err : ParseError → ParseError → Prop}

/-- A run respects what trying a byte respects. -/
theorem respects_countWhile {keep : Bool} {p : Pattern}
    (htest : RespectsUnless cut R err (test keep p)) :
    RespectsUnless cut R err (countWhile keep p) := by
  intro s
  induction hn : s.unread using Nat.strongRecOn generalizing s with
  | ind n ih =>
    intro t hst
    rw [countWhile_eq, countWhile_eq]
    refine (htest s t hst).bind fun a u b v hs huv => ?_
    obtain ⟨rfl, huv⟩ := huv
    cases a with
    | false => exact .ok ⟨rfl, huv⟩
    | true =>
      refine (ih u.unread (hn ▸ test_unread_lt hs) u rfl v huv).bind fun i x j y _ hxy => ?_
      exact .ok ⟨congrArg (· + 1) hxy.1, hxy.2⟩

/-- One byte or more respect what demanding one and trying more respect. -/
theorem respects_expectRun {p : Pattern} (hdemand : RespectsUnless cut R err (demand true p))
    (htest : RespectsUnless cut R err (test true p)) :
    RespectsUnless cut R err (expectRun p) :=
  hdemand.bind fun _ => (respects_countWhile htest).bind fun _ => respects_pure _

/-- A quoted text respects what trying its bytes and demanding the quote respect. -/
theorem respects_quotedRest {q : UInt8} (htest : RespectsUnless cut R err (test true (.quoted q)))
    (hdemand : RespectsUnless cut R err (demand true (.byte q)))
    (htake : RespectsUnless cut R err takeScratch) :
    RespectsUnless cut R err (quotedRest q) :=
  (respects_countWhile htest).bind fun _ => hdemand.bind fun _ => htake

/-- A list respects what its items and marks respect. -/
theorem respects_separatedBy {α : Type} {keep : Bool} {mark : Pattern} {item : Scan α}
    {hitem : Forward item} (htest : RespectsUnless cut R err (test keep mark))
    (hitems : RespectsUnless cut R err item) :
    RespectsUnless cut R err (separatedBy keep mark item hitem) := by
  intro s
  induction hn : s.unread using Nat.strongRecOn generalizing s with
  | ind n ih =>
    intro t hst
    rw [separatedBy_eq, separatedBy_eq]
    refine (hitems s t hst).bind fun a u b v hs huv => ?_
    obtain ⟨rfl, huv⟩ := huv
    refine (htest u v huv).bind fun c x d y hu hxy => ?_
    obtain ⟨rfl, hxy⟩ := hxy
    cases c with
    | false => exact .ok ⟨rfl, hxy⟩
    | true =>
      have hless := Nat.lt_of_lt_of_le (test_unread_lt hu) (hitem.ok_le hs)
      refine (ih x.unread (hn ▸ hless) x rfl y hxy).bind fun i u' j v' _ huv' => ?_
      exact .ok ⟨congrArg (a :: ·) huv'.1, huv'.2⟩

end Scan

end TabMarkup
