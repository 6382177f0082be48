import TabMarkup.Proofs.Grammar
import TabMarkup.Proofs.Scanner

/-!
# What readers take

A reader inside a line that succeeds has taken some bytes off its tape. `Takes` says which bytes
these can be, in terms of the value that came of them and of the token before and after. It goes
through sequences, runs and lists, so the grammar of a reader is put together from its parts.
-/

namespace TabMarkup.Scan

open Grammar

/-- The line of the last byte, after more bytes `w` of the line that comes next. -/
def lineAfter (line : Nat) : Bool → List UInt8 → Nat
  | true, _ :: _ => line + 1
  | _, _ => line

/-- Whether the next byte begins a new line, after more bytes `w` of the line that comes next. -/
def owedAfter : Bool → List UInt8 → Bool
  | true, [] => true
  | _, _ => false

@[simp] theorem lineAfter_nil (line : Nat) (owed : Bool) : lineAfter line owed [] = line := by
  cases owed <;> rfl

@[simp] theorem owedAfter_nil (owed : Bool) : owedAfter owed [] = owed := by
  cases owed <;> rfl

/-- After some bytes, the line is the one that the next byte was on. -/
theorem lineAfter_of_ne_nil (line : Nat) (owed : Bool) {w : List UInt8} (hw : w ≠ []) :
    lineAfter line owed w = if owed then line + 1 else line := by
  obtain ⟨b, w, rfl⟩ := List.exists_cons_of_ne_nil hw
  cases owed <;> rfl

theorem owedAfter_of_ne_nil (owed : Bool) {w : List UInt8} (hw : w ≠ []) :
    owedAfter owed w = false := by
  obtain ⟨b, w, rfl⟩ := List.exists_cons_of_ne_nil hw
  cases owed <;> rfl

@[simp] theorem lineAfter_append (line : Nat) (owed : Bool) (u v : List UInt8) :
    lineAfter (lineAfter line owed u) (owedAfter owed u) v = lineAfter line owed (u ++ v) := by
  cases owed <;> cases u <;> cases v <;> rfl

@[simp] theorem owedAfter_append (owed : Bool) (u v : List UInt8) :
    owedAfter (owedAfter owed u) v = owedAfter owed (u ++ v) := by
  cases owed <;> cases u <;> cases v <;> rfl

/-- Bytes of one line do not end it. -/
theorem at_of_takes {c : Cursor} {t : Tape} {line : Nat} {w : List UInt8}
    (hc : c.At t (lineAfter line false w) (owedAfter false w)) : c.At t line false := by
  cases w <;> exact hc

/-- Where `m` succeeds, it has taken bytes `w` of one line with `L c w a c'`, where `a` came of
them and the token went from `c` to `c'`. -/
def Takes {α : Type} (m : Scan α) (L : List UInt8 → List UInt8 → α → List UInt8 → Prop) : Prop :=
  ∀ ⦃s s' : Scanner⦄ ⦃a : α⦄ ⦃bytes : List UInt8⦄ ⦃failure? : Option String⦄ ⦃line : Nat⦄
    ⦃owed : Bool⦄, s.cursor.At { bytes, failure? } line owed → m s = .ok a s' →
    ∃ w rest, bytes = w ++ rest ∧ L s.scratch.toList w a s'.scratch.toList ∧
      s'.cursor.At { bytes := rest, failure? } (lineAfter line owed w) (owedAfter owed w)

/-- What is taken may be said less exactly. -/
theorem Takes.mono {α : Type} {m : Scan α} {L L' : List UInt8 → List UInt8 → α → List UInt8 → Prop}
    (hm : Takes m L) (h : ∀ c w a c', L c w a c' → L' c w a c') : Takes m L' := by
  intro s s' a bytes failure? line owed hs hok
  obtain ⟨w, rest, hbytes, hL, hs'⟩ := hm hs hok
  exact ⟨w, rest, hbytes, h _ _ _ _ hL, hs'⟩

/-- A sequence takes what its first part takes and then what its second part takes. -/
theorem Takes.bind {α β : Type} {m : Scan α} {f : α → Scan β}
    {L : List UInt8 → List UInt8 → α → List UInt8 → Prop}
    {M : α → List UInt8 → List UInt8 → β → List UInt8 → Prop}
    (hm : Takes m L) (hf : ∀ a, Takes (f a) (M a)) :
    Takes (m >>= f) fun c w b c' => ∃ a u v d, w = u ++ v ∧ L c u a d ∧ M a d v b c' := by
  intro s s' b bytes failure? line owed hs hok
  obtain ⟨a, t, hma, hfa⟩ := bind_eq_ok.mp hok
  obtain ⟨u, rest, rfl, hL, ht⟩ := hm hs hma
  obtain ⟨v, rest', rfl, hM, hs'⟩ := hf a ht hfa
  refine ⟨u ++ v, rest', by rw [List.append_assoc], ⟨a, u, v, _, rfl, hL, hM⟩, ?_⟩
  rwa [lineAfter_append, owedAfter_append] at hs'


/-- Doing nothing takes nothing. -/
theorem takes_pure {α : Type} (a : α) :
    Takes (pure a : Scan α) fun c w a' c' => w = [] ∧ a' = a ∧ c' = c := by
  intro s s' a' bytes failure? line owed hs hok
  cases hok
  exact ⟨[], bytes, rfl, ⟨rfl, rfl, rfl⟩, by simpa using hs⟩

/-- A fault takes nothing, since it does not succeed. -/
theorem takes_fail {α : Type} (fault : Fault) :
    Takes (fail fault : Scan α) fun _ _ _ _ => False := by
  intro s s' a' bytes failure? line owed hs hok
  cases hok

theorem takes_clearScratch : Takes clearScratch fun _ w _ c' => w = [] ∧ c' = [] := by
  intro s s' a' bytes failure? line owed hs hok
  cases hok
  exact ⟨[], bytes, rfl, ⟨rfl, rfl⟩, by simpa using hs⟩

/-- The token as text is what was collected. -/
theorem takes_takeScratch :
    Takes takeScratch fun c w name c' => w = [] ∧ name = text c ∧ c' = [] := by
  intro s s' a' bytes failure? line owed hs hok
  cases hok
  exact ⟨[], bytes, rfl, ⟨rfl, rfl, rfl⟩, by simpa using hs⟩

/-- A choice takes what the chosen branch takes. -/
theorem takes_ite {α : Type} {m m' : Scan α}
    {L L' : List UInt8 → List UInt8 → α → List UInt8 → Prop} (hm : Takes m L)
    (hm' : Takes m' L') (b : Bool) :
    Takes (if b = true then m else m')
      fun c w a c' => (b = true ∧ L c w a c') ∨ (b = false ∧ L' c w a c') := by
  cases b
  · exact hm'.mono fun _ _ _ _ h => Or.inr ⟨rfl, h⟩
  · exact hm.mono fun _ _ _ _ h => Or.inl ⟨rfl, h⟩

/-! ## Single bytes -/

/-- A byte that is no newline belongs to the line that comes next. -/
theorem at_sameLine {c : Cursor} {t : Tape} {line : Nat} {owed : Bool} {b : UInt8} {p : Pattern}
    (hp : p.admits 10 = false) (hb : p.admits b = true)
    (hc : c.At t (if owed then line + 1 else line) (b == 10)) :
    c.At t (lineAfter line owed [b]) (owedAfter owed [b]) := by
  have hne : (b == 10) = false := by
    refine beq_false_of_ne fun hb10 => ?_
    rw [hb10, hp] at hb
    cases hb
  rw [hne] at hc
  rwa [lineAfter_of_ne_nil _ _ (by simp), owedAfter_of_ne_nil _ (by simp)]

/-- Trying takes a byte that the pattern admits, or nothing. -/
theorem takes_test (keep : Bool) {p : Pattern} (hp : p.admits 10 = false) :
    Takes (test keep p) fun c w a c' =>
      (a = true ∧ ∃ b, p.admits b = true ∧ w = [b] ∧ c' = if keep then c ++ [b] else c) ∨
      (a = false ∧ w = [] ∧ c' = c) := by
  intro s s' a bytes failure? line owed hs hok
  rcases test_ok hs hok with ⟨rfl, b, rest, hb, ht, hat, hscratch⟩ | ⟨rfl, hat, hscratch, _⟩
  · cases ht
    refine ⟨[b], rest, rfl, Or.inl ⟨rfl, b, hb, rfl, ?_⟩, at_sameLine hp hb hat⟩
    rw [hscratch]
    cases keep <;> simp
  · exact ⟨[], bytes, rfl, Or.inr ⟨rfl, rfl, by rw [hscratch]⟩, by simpa using hat⟩

/-- Demanding takes a byte that the pattern admits. -/
theorem takes_demand (keep : Bool) {p : Pattern} (hp : p.admits 10 = false) :
    Takes (demand keep p) fun c w _ c' =>
      ∃ b, p.admits b = true ∧ w = [b] ∧ c' = if keep then c ++ [b] else c := by
  intro s s' a bytes failure? line owed hs hok
  obtain ⟨b, rest, hb, ht, hat, hscratch⟩ := demand_ok hs hok
  cases ht
  refine ⟨[b], rest, rfl, ⟨b, hb, rfl, ?_⟩, at_sameLine hp hb hat⟩
  rw [hscratch]
  cases keep <;> simp

/-- Only one character answers the pattern of a character. -/
theorem admits_char {ch : Char} {b : UInt8} :
    (Pattern.char ch).admits b = true ↔ [b] = ascii [ch] := by
  simp [Pattern.char, Pattern.admits, ascii]

/-- Skipping a character takes the character, or nothing. -/
theorem takes_skip {ch : Char} (hch : (Pattern.char ch).admits 10 = false) :
    Takes (skip (.char ch)) fun c w a c' =>
      (a = true ∧ w = ascii [ch] ∧ c' = c) ∨ (a = false ∧ w = [] ∧ c' = c) := by
  apply (takes_test false hch).mono
  rintro c w a c' (⟨rfl, b, hb, rfl, rfl⟩ | ⟨rfl, rfl, rfl⟩)
  · exact Or.inl ⟨rfl, admits_char.mp hb, rfl⟩
  · exact Or.inr ⟨rfl, rfl, rfl⟩

/-! ## Runs and lists -/

/-- A run takes bytes that the pattern admits, as many as it tells. -/
theorem takes_countWhile (keep : Bool) {p : Pattern} (hp : p.admits 10 = false) :
    Takes (countWhile keep p) fun c w n c' =>
      (∀ b ∈ w, p.admits b = true) ∧ n = w.length ∧ c' = if keep then c ++ w else c := by
  intro s
  induction hn : s.unread using Nat.strongRecOn generalizing s with
  | ind n ih =>
    intro s' m bytes failure? line owed hs hok
    rw [countWhile_eq] at hok
    obtain ⟨a, t, htest, hok⟩ := bind_eq_ok.mp hok
    obtain ⟨u, rest, rfl, hu, ht⟩ := takes_test keep hp hs htest
    rcases hu with ⟨rfl, b, hb, rfl, hc⟩ | ⟨rfl, rfl, hc⟩
    · obtain ⟨k, t', hrun, hok⟩ := bind_eq_ok.mp hok
      obtain ⟨w, rest', rfl, ⟨hw, rfl, hc'⟩, ht'⟩ :=
        ih t.unread (hn ▸ test_unread_lt htest) rfl ht hrun
      cases hok
      refine ⟨b :: w, rest', rfl, ⟨?_, rfl, ?_⟩, by simpa using ht'⟩
      · simpa [hb] using hw
      · rw [hc', hc]
        cases keep <;> simp
    · cases hok
      refine ⟨[], rest, rfl, ⟨by simp, rfl, ?_⟩, by simpa using ht⟩
      rw [hc]
      cases keep <;> simp

/-- A run of one byte or more. -/
theorem takes_expectRun {p : Pattern} (hp : p.admits 10 = false) :
    Takes (expectRun p) fun c w _ c' => IsRun p w ∧ c' = c ++ w := by
  refine ((takes_demand true hp).bind fun _ =>
    (takes_countWhile true hp).bind fun _ => takes_pure _).mono ?_
  rintro c w a c' ⟨_, _, _, _, rfl, ⟨b, hb, rfl, rfl⟩, _, v, _, _, rfl, ⟨hv, _, rfl⟩, rfl, _, rfl⟩
  exact ⟨⟨by simp, by simpa [hb] using hv⟩, by simp⟩

/-- A list of items with marks between them. `M c w as c'` has to follow for one item, and for
an item, a mark and a list. -/
theorem takes_separatedBy {α : Type} {keep : Bool} {mark : Pattern} {item : Scan α}
    {hitem : Forward item} {L : List UInt8 → List UInt8 → α → List UInt8 → Prop}
    {M : List UInt8 → List UInt8 → List α → List UInt8 → Prop}
    (hmark : mark.admits 10 = false) (htakes : Takes item L)
    (hsingle : ∀ c w a d, L c w a d → M c w [a] d)
    (hcons : ∀ c w a d b v as e, L c w a d → mark.admits b = true →
      M (if keep then d ++ [b] else d) v as e → M c (w ++ b :: v) (a :: as) e) :
    Takes (separatedBy keep mark item hitem) M := by
  intro s
  induction hn : s.unread using Nat.strongRecOn generalizing s with
  | ind n ih =>
    intro s' as bytes failure? line owed hs hok
    rw [separatedBy_eq] at hok
    obtain ⟨a, t, hfirst, hok⟩ := bind_eq_ok.mp hok
    obtain ⟨w, rest, rfl, hL, ht⟩ := htakes hs hfirst
    obtain ⟨more, u, htest, hok⟩ := bind_eq_ok.mp hok
    obtain ⟨w', rest', rfl, hw', hu⟩ := takes_test keep hmark ht htest
    rcases hw' with ⟨rfl, b, hb, rfl, hc⟩ | ⟨rfl, rfl, hc⟩
    · obtain ⟨as', v, hrest, hok⟩ := bind_eq_ok.mp hok
      have hlt : u.unread < n :=
        hn ▸ Nat.lt_of_lt_of_le (test_unread_lt htest) (hitem.ok_le hfirst)
      obtain ⟨x, rest'', rfl, hM, hv⟩ := ih u.unread hlt rfl hu hrest
      cases hok
      rw [hc] at hM
      exact ⟨w ++ b :: x, rest'', by simp, hcons _ _ _ _ _ _ _ _ hL hb hM, by simpa using hv⟩
    · cases hok
      rw [hc]
      exact ⟨w, rest', rfl, hsingle _ _ _ _ hL, by simpa using hu⟩

end TabMarkup.Scan
