import TabMarkup.Proofs.Scanner
import TabMarkup.Proofs.StepBack

/-!
# Trying a byte in vain

A byte that is tried in vain has been read: a chunk may have been fetched for it, a line begun or
the end met. Giving it back leaves all that as reading ahead would, and reading ahead is what the
next read does first. So whatever is asked later, failed reads included, is answered as if the byte
had not been tried (`attempt_in_vain_unseen`).
-/

namespace TabMarkup

/-! ## Cursors before the same bytes -/

namespace Cursor

/-- The cursor without the notes of its last step. -/
def settled (c : Cursor) : Cursor :=
  { c with paid := false, last? := none }

/-- Reading ahead brings both cursors to the same place, or fails alike. -/
def SameAhead (c d : Cursor) : Prop :=
  c.settled.refill = d.settled.refill

variable {c d : Cursor}

/-- Reading ahead has no part in what stepping back returns. -/
theorem refill_last? (c : Cursor) (last? : Option UInt8) :
    { c with last? }.refill = (c.refill.1, { c.refill.2 with last? }) := by
  unfold refill
  dsimp only
  split
  · rfl
  · obtain ⟨answer, source⟩ := c.source.read
    cases answer <;> rfl

/-- What was read ahead is not read again. -/
theorem refill_again (h : c.refill = (.ok (), d)) : d.refill = (.ok (), d) := by
  unfold refill at h
  split at h
  · rename_i hready
    cases h
    rw [refill, if_pos hready]
  · split at h
    · cases h
    · rename_i bytes source hread
      cases h
      rw [refill, if_pos]
      cases bytes with
      | nil => exact Or.inr rfl
      | cons b bytes => exact Or.inl (Nat.succ_pos _)

/-- Reading ahead changes where the bytes are and whether the end is noted. -/
theorem exists_refill_eq (c : Cursor) :
    ∃ source chunk pos ended, c.refill.2 = { c with source, chunk, pos, ended } := by
  unfold refill
  split
  · exact ⟨_, _, _, _, rfl⟩
  · split <;> exact ⟨_, _, _, _, rfl⟩

/-- Reading ahead leaves no notes of a step. -/
theorem settled_of_refill {r : Except String Unit} (h : c.settled.refill = (r, d)) :
    d.settled = d := by
  obtain ⟨source, chunk, pos, ended, heq⟩ := exists_refill_eq c.settled
  rw [h] at heq
  change d = _ at heq
  rw [heq]
  rfl

/-- Taking a byte is reading ahead, and then taking what is there. -/
theorem next_eq (c : Cursor) :
    c.next = match c.settled.refill with
      | (.error message, d) => (.error message, { d with last? := c.last? })
      | (.ok (), d) =>
        match d.chunk[d.pos]? with
        | none => (.ok none, d)
        | some b => (.ok (some b), d.advance b) := by
  have hrefill : { c with paid := false }.refill =
      (c.settled.refill.1, { c.settled.refill.2 with last? := c.last? }) :=
    refill_last? c.settled c.last?
  rw [next, hrefill]
  generalize h : c.settled.refill = r
  obtain ⟨answer, d⟩ := r
  cases answer with
  | error message => rfl
  | ok _ =>
    dsimp only
    cases d.chunk[d.pos]? with
    | none =>
      have hlast : d.last? = none := (congrArg Cursor.last? (settled_of_refill h)).symm
      dsimp only
      rw [← hlast]
    | some b => rfl

/-- Cursors before the same bytes take the same byte and are then in the same place, or both fail
and are still before the same bytes. -/
theorem SameAhead.next (h : c.SameAhead d) :
    c.next = d.next ∨ ∃ message c' d', c.next = (.error message, c') ∧
      d.next = (.error message, d') ∧ c'.SameAhead d' := by
  rw [next_eq, next_eq, h]
  obtain ⟨answer, e⟩ := d.settled.refill
  cases answer with
  | error message => exact Or.inr ⟨message, _, _, rfl, rfl, rfl⟩
  | ok _ => exact Or.inl rfl

theorem SameAhead.line_eq (h : c.SameAhead d) : c.line = d.line := by
  have hline (c : Cursor) : c.settled.refill.2.line = c.line := by
    obtain ⟨source, chunk, pos, ended, heq⟩ := exists_refill_eq c.settled
    rw [heq]
    rfl
  rw [← hline c, ← hline d, h]

/-- A byte that was taken and given back is ahead as it was, and so is the end that was met. -/
theorem sameAhead_of_next {b? : Option UInt8} (hc : c.Sound) (h : c.next = (.ok b?, d)) :
    (if b?.isSome then d.pushBack else d).SameAhead c := by
  rw [next_eq] at h
  split at h
  · cases h
  · rename_i e hrefill
    have hsettled := settled_of_refill hrefill
    have hsame : e.SameAhead c := by
      rw [SameAhead, hsettled, hrefill]
      exact refill_again hrefill
    split at h
    · cases h
      exact hsame
    · rename_i b hget
      cases h
      have hat := (At.forget ⟨hc, rfl, rfl, rfl⟩ false none).refill_ok hrefill
      have hback : (e.advance b).pushBack = e := by
        rw [hat.1.sound.pushBack_advance hget]
        exact hsettled
      simpa [hback] using hsame

end Cursor

/-! ## Requests -/

/-- What a scanner can be asked to do. -/
inductive Request where
  | accept (p : Pattern)
  | skip (p : Pattern)
  | expect (p : Pattern)
  | require (p : Pattern)
  | expectRun (p : Pattern)
  | acceptWhile (p : Pattern)
  | clearScratch
  | takeScratch
  /-- To stop with a fault on the current line. -/
  | fail (fault : Fault)
  deriving Repr, DecidableEq

/-- What a request is answered with if it does not stop. -/
inductive Reply where
  | done
  | flag (b : Bool)
  | count (n : Nat)
  | token (text : String)
  deriving Repr, DecidableEq

/-- The answer to a request or the error it stopped with, and the line after it. -/
structure Response where
  outcome : Except ParseError Reply
  line : Nat

namespace Scan

/-- Does what is requested. -/
def perform : Request → Scan Reply
  | .accept p => return .flag (← accept p)
  | .skip p => return .flag (← skip p)
  | .expect p => do expect p; return .done
  | .require p => do require p; return .done
  | .expectRun p => do expectRun p; return .done
  | .acceptWhile p => return .count (← acceptWhile p)
  | .clearScratch => do clearScratch; return .done
  | .takeScratch => return .token (← takeScratch)
  | .fail fault => fail fault

/-- The answer of a run of steps, or the error it stopped with. -/
def outcome {ε α : Type} : EStateM.Result ε Scanner α → Except ε α
  | .ok a _ => .ok a
  | .error e _ => .error e

end Scan

namespace Scanner

open Scan

/-- The scanner after a request, whatever came of it. -/
def after (s : Scanner) (request : Request) : Scanner :=
  final (perform request s)

/-- The response to a request. -/
def respond (s : Scanner) (request : Request) : Response :=
  { outcome := outcome (perform request s), line := (s.after request).cursor.line }

/-- The responses to requests, one after the other. A request that stops with an error does not keep
the next one from being made. -/
def responses : Scanner → List Request → List Response
  | _, [] => []
  | s, request :: requests => s.respond request :: (s.after request).responses requests

end Scanner

namespace Scan

/-! ## Steady scanners -/

/-- Steps that keep the cursor steady, whatever comes of them. -/
def KeepsSteady {ε α : Type} (m : EStateM ε Scanner α) : Prop :=
  ∀ s, s.cursor.Steady → (final (m s)).cursor.Steady

theorem keepsSteady_pure {ε α : Type} (a : α) : KeepsSteady (pure a : EStateM ε Scanner α) :=
  fun _ hs => hs

theorem KeepsSteady.bind {ε α β : Type} {m : EStateM ε Scanner α} {f : α → EStateM ε Scanner β}
    (hm : KeepsSteady m) (hf : ∀ a, KeepsSteady (f a)) : KeepsSteady (m >>= f) := by
  intro s hs
  have hsteady := hm s hs
  cases h : m s with
  | ok a t =>
    rw [h] at hsteady
    rw [bind_of_ok h]
    exact hf a t hsteady
  | error e t =>
    rw [h] at hsteady
    rw [bind_of_error h]
    exact hsteady

theorem keepsSteady_next : KeepsSteady next := by
  intro s hs
  have hnext := hs.next
  unfold next
  split <;> rename_i heq <;> rwa [heq] at hnext

theorem keepsSteady_store (keep : Bool) (b : UInt8) : KeepsSteady (store keep b) := by
  intro s hs
  cases keep <;> exact hs

theorem keepsSteady_test (keep : Bool) (p : Pattern) : KeepsSteady (test keep p) := by
  refine keepsSteady_next.bind fun b? => ?_
  cases b? with
  | none => exact keepsSteady_pure _
  | some b =>
    dsimp only
    split
    · exact (keepsSteady_store keep b).bind fun _ => keepsSteady_pure _
    · have hback : KeepsSteady pushBack := fun s hs => hs.pushBack
      exact hback.bind fun _ => keepsSteady_pure _

theorem keepsSteady_demand (keep : Bool) (p : Pattern) : KeepsSteady (demand keep p) := by
  refine keepsSteady_next.bind fun b? => ?_
  cases b? with
  | none => exact fun s hs => hs
  | some b =>
    dsimp only
    split
    · exact keepsSteady_store keep b
    · exact fun s hs => hs

theorem keepsSteady_countWhile (keep : Bool) (p : Pattern) : KeepsSteady (countWhile keep p) := by
  intro s hs
  have htest := keepsSteady_test keep p s hs
  fun_induction countWhile keep p s with
  | case1 s e t h => rwa [h] at htest
  | case2 s t h => rwa [h] at htest
  | case3 s t h hlt e u hcount ih =>
    rw [h] at htest
    have hrest := ih htest (keepsSteady_test keep p t htest)
    rwa [hcount] at hrest
  | case4 s t h hlt n u hcount ih =>
    rw [h] at htest
    have hrest := ih htest (keepsSteady_test keep p t htest)
    rwa [hcount] at hrest

/-- Every request keeps the cursor steady. -/
theorem keepsSteady_perform (request : Request) : KeepsSteady (perform request) := by
  cases request with
  | accept p => exact (keepsSteady_test true p).bind fun _ => keepsSteady_pure _
  | skip p => exact (keepsSteady_test false p).bind fun _ => keepsSteady_pure _
  | expect p => exact (keepsSteady_demand true p).bind fun _ => keepsSteady_pure _
  | require p => exact (keepsSteady_demand false p).bind fun _ => keepsSteady_pure _
  | expectRun p =>
    exact ((keepsSteady_demand true p).bind fun _ => (keepsSteady_countWhile true p).bind fun _ =>
      keepsSteady_pure _).bind fun _ => keepsSteady_pure _
  | acceptWhile p => exact (keepsSteady_countWhile true p).bind fun _ => keepsSteady_pure _
  | clearScratch => exact fun s hs => hs
  | takeScratch => exact fun s hs => hs
  | fail fault => exact fun s hs => hs

/-! ## Scanners before the same bytes -/

/-- Scanners before the same bytes, with the same token. -/
def SameAhead (s t : Scanner) : Prop :=
  s.cursor.SameAhead t.cursor ∧ s.scratch = t.scratch

/-- Steps that come to the very same from scanners before the same bytes, or stop with the same
error before the same bytes. -/
def Converges {ε α : Type} (m : EStateM ε Scanner α) : Prop :=
  ∀ s t, SameAhead s t → m s = m t ∨
    ∃ e s' t', m s = .error e s' ∧ m t = .error e t' ∧ SameAhead s' t'

/-- Reading one byte makes scanners the same, so what comes after it does not matter. -/
theorem Converges.bind {ε α β : Type} {m : EStateM ε Scanner α} (hm : Converges m)
    (f : α → EStateM ε Scanner β) : Converges (m >>= f) := by
  intro s t hst
  rcases hm s t hst with heq | ⟨e, s', t', hs, ht, hst'⟩
  · left
    cases h : m t with
    | ok a u => rw [bind_of_ok h, bind_of_ok (heq.trans h)]
    | error e u => rw [bind_of_error h, bind_of_error (heq.trans h)]
  · exact Or.inr ⟨e, s', t', bind_of_error hs, bind_of_error ht, hst'⟩

theorem converges_next : Converges next := by
  rintro ⟨c, scratch⟩ ⟨d, _⟩ ⟨hahead, rfl⟩
  rcases hahead.next with heq | ⟨message, c', d', hc, hd, hahead'⟩
  · left
    unfold next
    dsimp only
    rw [heq]
  · refine Or.inr ⟨⟨.unreadable message, c'.line⟩, ⟨c', scratch⟩, ⟨d', scratch⟩, ?_, ?_, hahead',
      rfl⟩
    · rw [next, hc]
    · rw [next, hd, hahead'.line_eq]

theorem converges_test (keep : Bool) (p : Pattern) : Converges (test keep p) :=
  converges_next.bind _

theorem converges_demand (keep : Bool) (p : Pattern) : Converges (demand keep p) :=
  converges_next.bind _

theorem converges_countWhile (keep : Bool) (p : Pattern) : Converges (countWhile keep p) := by
  have hrun : (countWhile keep p : Scan Nat) =
      do if ← test keep p then return (← countWhile keep p) + 1 else return 0 :=
    funext (countWhile_eq keep p)
  rw [hrun]
  exact (converges_test keep p).bind _

variable {s t : Scanner}

/-- From scanners before the same bytes a request is responded to alike, and leaves them so. -/
theorem SameAhead.respond (h : SameAhead s t) (request : Request) :
    s.respond request = t.respond request ∧ SameAhead (s.after request) (t.after request) := by
  have hreads (hm : Converges (perform request)) : s.respond request = t.respond request ∧
      SameAhead (s.after request) (t.after request) := by
    unfold Scanner.respond Scanner.after
    rcases hm s t h with heq | ⟨e, s', t', hs, ht, hst'⟩
    · rw [heq]
      exact ⟨rfl, rfl, rfl⟩
    · rw [hs, ht]
      exact ⟨congrArg (Response.mk _) hst'.1.line_eq, hst'⟩
  cases request with
  | accept p => exact hreads ((converges_test true p).bind _)
  | skip p => exact hreads ((converges_test false p).bind _)
  | expect p => exact hreads ((converges_demand true p).bind _)
  | require p => exact hreads ((converges_demand false p).bind _)
  | expectRun p => exact hreads (((converges_demand true p).bind _).bind _)
  | acceptWhile p => exact hreads ((converges_countWhile true p).bind _)
  | clearScratch => exact ⟨congrArg (Response.mk _) h.1.line_eq, h.1, rfl⟩
  | takeScratch =>
    obtain ⟨c, scratch⟩ := s
    obtain ⟨d, _⟩ := t
    obtain ⟨hahead, rfl⟩ := h
    exact ⟨congrArg (Response.mk _) hahead.line_eq, hahead, rfl⟩
  | fail fault =>
    exact ⟨congrArg (fun line => Response.mk (.error ⟨fault, line⟩) line) h.1.line_eq, h⟩

theorem SameAhead.responses (h : SameAhead s t) (requests : List Request) :
    s.responses requests = t.responses requests := by
  induction requests generalizing s t with
  | nil => rfl
  | cons request requests ih =>
    obtain ⟨hrespond, hafter⟩ := h.respond request
    rw [Scanner.responses, Scanner.responses, hrespond, ih hafter]

/-- A byte tried in vain is ahead as before. -/
theorem sameAhead_of_test (hs : s.cursor.Sound) {keep : Bool} {p : Pattern}
    (h : test keep p s = .ok false t) : SameAhead t s := by
  obtain ⟨b?, u, hnext, h⟩ := bind_eq_ok.mp h
  unfold next at hnext
  split at hnext
  · rename_i b? c hcursor
    cases hnext
    have hahead := Cursor.sameAhead_of_next hs hcursor
    cases b? with
    | none =>
      cases h
      exact ⟨hahead, rfl⟩
    | some b =>
      dsimp only at h
      split at h
      · obtain ⟨_, _, _, h⟩ := bind_eq_ok.mp h
        cases h
      · cases h
        exact ⟨hahead, rfl⟩
  · cases hnext

/-- Trying in vain has met the end, or found a byte before which there is none. -/
theorem isEof_of_test (hs : s.cursor.Sound) {keep : Bool} {p : Pattern}
    (h : test keep p s = .ok false t) :
    s.cursor.next.1 = .ok none ∧ t.cursor.isEof = true ∨
      s.cursor.isEof = false ∧ t.cursor.isEof = false := by
  have hat : s.cursor.At s.cursor.ahead s.cursor.line s.cursor.owed := ⟨hs, rfl, rfl, rfl⟩
  rcases test_ok hat h with ⟨htrue, _⟩ | ⟨_, _, _, heof, _⟩
  · cases htrue
  · rcases hat.next_cases with ⟨b, rest, d, htape, _⟩ | ⟨d, htape, hnext, _⟩ |
      ⟨message, d, htape, hnext, _⟩
    · right
      have hmore : s.cursor.ahead.bytes ≠ [] := by
        rw [htape]
        exact List.cons_ne_nil b rest
      refine ⟨Bool.eq_false_iff.mpr fun hsaw => hmore (hat.bytes_of_isEof hsaw), ?_⟩
      rw [heof]
      exact decide_eq_false fun hover => hmore (congrArg Tape.bytes hover)
    · exact Or.inl ⟨by rw [hnext], by rw [heof, decide_eq_true htape]⟩
    · rw [htape] at hat
      obtain ⟨u, hfailure⟩ := test_failure keep (p := p) hat
      cases hfailure.symm.trans h

end Scan

open Scan

/-- The scanner after requests, one after the other. -/
def Scanner.afterAll (s : Scanner) (requests : List Request) : Scanner :=
  requests.foldl Scanner.after s

/-- Any requests keep the cursor steady. -/
theorem Scanner.steady_afterAll {s : Scanner} (hs : s.cursor.Steady) (requests : List Request) :
    (s.afterAll requests).cursor.Steady := by
  induction requests generalizing s with
  | nil => exact hs
  | cons request requests ih => exact ih (keepsSteady_perform request s hs)

/-- A request to try a byte that is answered with no is a byte tried in vain. -/
theorem exists_test_of_respond {s : Scanner} {attempt : Request} {p : Pattern}
    (hattempt : attempt = .accept p ∨ attempt = .skip p)
    (h : (s.respond attempt).outcome = .ok (.flag false)) :
    ∃ keep, test keep p s = .ok false (s.after attempt) := by
  obtain ⟨keep, hperform⟩ : ∃ keep, perform attempt = do return .flag (← test keep p) := by
    rcases hattempt with rfl | rfl
    · exact ⟨true, rfl⟩
    · exact ⟨false, rfl⟩
  refine ⟨keep, ?_⟩
  unfold Scanner.respond Scanner.after at *
  rw [hperform] at h ⊢
  cases htest : test keep p s with
  | error e u =>
    rw [bind_of_error htest] at h
    cases h
  | ok b u =>
    rw [bind_of_ok htest] at h ⊢
    cases h
    rfl

/-- Where a byte is tried and not taken, after any requests and over any source, any later requests
are responded to as if it had not been tried. The line is the same, and the end is noted anew only
if it was met. -/
theorem attempt_in_vain_unseen (source : Source) (size? : Option Nat) (requests : List Request)
    {attempt : Request} {p : Pattern} (hattempt : attempt = .accept p ∨ attempt = .skip p) :
    let s := (Scanner.ofSource source size?).afterAll requests
    (s.respond attempt).outcome = .ok (.flag false) →
      (∀ later, (s.after attempt).responses later = s.responses later) ∧
        (s.after attempt).cursor.line = s.cursor.line ∧
        (s.cursor.next.1 = .ok none ∧ (s.after attempt).cursor.isEof = true ∨
          s.cursor.isEof = false ∧ (s.after attempt).cursor.isEof = false) := by
  intro s hfalse
  have hstart : (Scanner.ofSource source size?).cursor.Steady := Cursor.steady_ofSource source size?
  have hsound : s.cursor.Sound := (Scanner.steady_afterAll hstart requests).toSound
  obtain ⟨keep, htest⟩ := exists_test_of_respond hattempt hfalse
  have hahead := sameAhead_of_test hsound htest
  exact ⟨hahead.responses, hahead.1.line_eq, isEof_of_test hsound htest⟩

/-- The newline that begins the second chunk is tried in vain, behind a newline that was taken. The
line and the later responses, with a failure among them, are what they are without that. -/
theorem attempt_unseen_before_newline :
    let source : Source :=
      [.data [0x61, 0x0A], .interrupted, .data [0x0A], .failure "gone", .data [0x62]]
    let s := (Scanner.ofSource source (some 9)).afterAll [.accept .letter, .skip (.byte 0x0A)]
    (s.respond (.accept .letter)).outcome = .ok (.flag false) ∧
      (s.after (.accept .letter)).responses [.skip (.byte 0x0A), .expect .letter, .takeScratch] =
        s.responses [.skip (.byte 0x0A), .expect .letter, .takeScratch] ∧
      (s.after (.accept .letter)).cursor.line = 1 ∧
      (s.after (.accept .letter)).cursor.isEof = false := by
  intro source s
  have hfalse : (s.respond (.accept .letter)).outcome = .ok (.flag false) := rfl
  obtain ⟨hlater, hline, heof⟩ :=
    attempt_in_vain_unseen source (some 9) [.accept .letter, .skip (.byte 0x0A)] (Or.inl rfl) hfalse
  have hone : s.cursor.line = 1 := rfl
  have hnext : s.cursor.next.1 = .ok (some 0x0A) := rfl
  refine ⟨hfalse, hlater _, hline.trans hone, ?_⟩
  rcases heof with ⟨hend, _⟩ | ⟨_, heof⟩
  · rw [hnext] at hend
    cases hend
  · exact heof

end TabMarkup
